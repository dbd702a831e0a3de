import JsxBoundary.InPlace.Traversal
import JsxBoundary.Proofs.Assembly

namespace JsxBoundary

def Form.isLeaf {α : Type} : Form α → Bool
  | .identifier _ | .importSpecifier _ _ | .text _ | .emptyExpression => true
  | _ => false

def Form.isText {α : Type} : Form α → Bool
  | .text _ => true
  | _ => false

theorem Form.isLeaf_of_omits {α β : Type} {form : Form α} {child : Form β} (omits : form.omits child = true) :
    child.isLeaf = true := by
  cases form <;> cases child <;> first | rfl | cases omits

theorem Form.map_of_isLeaf {α : Type} {form : Form α} (leaf : form.isLeaf = true) (f : α → α) :
    form.map f = form := by
  cases form <;> first | rfl | cases leaf

@[simp] theorem Form.omits_map {α β γ : Type} (f : α → β) (form : Form α) (child : Form γ) :
    (form.map f).omits child = form.omits child := by
  cases form <;> cases child <;> rfl

@[simp] theorem Form.omits_map_child {α β γ : Type} (f : β → γ) (form : Form α) (child : Form β) :
    form.omits (child.map f) = form.omits child := by
  cases form <;> cases child <;> rfl

namespace InPlace

def Heap.Omits (h : Heap) (o : Object) (c : Ref) : Prop :=
  ∃ form, h.form? c = some form ∧ o.form.omits form = true

/-- The layout shows each child once that it does not leave out, and the content of an element between
its tags. -/
structure Object.Tidy (h : Heap) (o : Object) : Prop where
  inside : ∀ c : Nat, c ∈ o.refs → c < h.length
  once : o.form.children.Nodup
  shown : o.marked.Nodup
  complete : ∀ marks, o.layout = some marks → ∀ c ∈ o.form.children, .node c ∈ marks ∨ h.Omits o c
  enclosed : ∀ opening content closing marks, o.form = .element (some opening) content (some closing) →
    o.layout = some marks → ∀ c ∈ content, [.node opening, .node c, .node closing].Sublist marks

structure Heap.Spacing (h : Heap) (c : Ref) : Prop where
  blank : ∃ value, h.form? c = some (.text value) ∧ Text.isBlank value = true
  dropped : ∃ e opening content closing, h.form? e = some (.element opening content closing) ∧ c ∈ content

/-- The objects are tidy. The first `read` of them have been read from source text. Only a fragment made
since shows more than its children, and that is blank text of an element. -/
structure Heap.Tidy (read : Nat) (h : Heap) : Prop where
  objects : ∀ (r : Nat) (o : Object), h[r]? = some o → o.Tidy h
  loose : ∀ (r : Nat) (o : Object), h[r]? = some o → ∀ c ∈ o.loose,
    read ≤ r ∧ (∃ content, o.form = .fragment content) ∧ h.Spacing c
  texts : ∀ (r : Nat) value, h.form? r = some (.text value) → r < read
  start : read ≤ h.length

variable {read : Nat} {h h' : Heap} {o : Object} {r old new : Ref}

theorem findIdx?_node {front back : List Mark} (once : (Mark.refs (front ++ .node r :: back)).Nodup) :
    (front ++ .node r :: back).findIdx? (· == .node r) = some front.length := by
  refine Node.findIdx?_split (fun mark member => ?_) (beq_self_eq_true _)
  rw [beq_eq_false_iff_ne]
  rintro rfl
  rw [Mark.refs, List.filterMap_append] at once
  exact (List.nodup_append.1 once).2.2 r (Mark.mem_refs.2 member) r (.head _) rfl

structure Heap.Evolves (h h' : Heap) : Prop where
  grown : h.length ≤ h'.length
  leaves : ∀ c form, h.form? c = some form → form.isLeaf = true → h'.form? c = some form

theorem Heap.Evolves.of_longer (longer : h <+: h') : h.Evolves h' :=
  ⟨longer.length_le, fun _ _ found _ => form?_of_longer longer found⟩

theorem Heap.Omits.evolves {c : Ref} (omits : h.Omits o c) (evolves : h.Evolves h') : h'.Omits o c := by
  obtain ⟨form, found, omitted⟩ := omits
  exact ⟨form, evolves.leaves c form found (Form.isLeaf_of_omits omitted), omitted⟩

theorem Heap.Spacing.extend {c : Ref} (spacing : h.Spacing c) (longer : h <+: h') : h'.Spacing c := by
  obtain ⟨⟨value, text, blank⟩, e, opening, content, closing, element, member⟩ := spacing
  exact ⟨⟨value, form?_of_longer longer text, blank⟩, e, opening, content, closing,
    form?_of_longer longer element, member⟩

theorem Object.Tidy.evolves (tidy : o.Tidy h) (evolves : h.Evolves h') : o.Tidy h' where
  inside c listed := Nat.lt_of_lt_of_le (tidy.inside c listed) evolves.grown
  once := tidy.once
  shown := tidy.shown
  complete marks layout c child := (tidy.complete marks layout c child).imp_right (·.evolves evolves)
  enclosed := tidy.enclosed

theorem Object.Tidy.refs_nodup (tidy : o.Tidy h) : o.refs.Nodup := by
  apply List.nodup_append.2
  refine ⟨tidy.once, tidy.shown.filter _, fun a child b loose same => ?_⟩
  exact (Object.mem_loose.1 loose).2 (same ▸ child)

theorem getElem?_concat_cases {r : Nat} {p : Object} (found : (h ++ [o])[r]? = some p) :
    h[r]? = some p ∨ r = h.length ∧ p = o := by
  rw [List.getElem?_append] at found
  split at found
  · exact .inl found
  · rename_i beyond
    obtain ⟨bound, rfl⟩ := List.getElem?_eq_some_iff.1 found
    have last : r - h.length = 0 := by simpa using bound
    simp only [last, List.getElem_cons_zero, and_true]
    omega

theorem Heap.Tidy.concat (tidy : h.Tidy read) (own : o.Tidy h)
    (loose : ∀ c ∈ o.loose, (∃ content, o.form = .fragment content) ∧ h.Spacing c)
    (text : o.form.isText = false) : Heap.Tidy read (h ++ [o]) := by
  have longer : h <+: h ++ [o] := List.prefix_append h [o]
  refine ⟨fun r p found => ?_, fun r p found c member => ?_, fun r value found => ?_, ?_⟩
  · rcases getElem?_concat_cases found with old | ⟨_, rfl⟩
    · exact (tidy.objects r p old).evolves (.of_longer longer)
    · exact own.evolves (.of_longer longer)
  · rcases getElem?_concat_cases found with old | ⟨rfl, rfl⟩
    · obtain ⟨made, fragment, spacing⟩ := tidy.loose r p old c member
      exact ⟨made, fragment, spacing.extend longer⟩
    · obtain ⟨fragment, spacing⟩ := loose c member
      exact ⟨tidy.start, fragment, spacing.extend longer⟩
  · obtain ⟨p, here, form⟩ := Option.map_eq_some_iff.1 found
    rcases getElem?_concat_cases here with old | ⟨_, rfl⟩
    · exact tidy.texts r value (form ▸ form?_eq old)
    · rw [form] at text
      cases text
  · rw [List.length_append]
    exact tidy.start.trans (Nat.le_add_right _ _)

theorem Heap.Tidy.closed (tidy : h.Tidy h.length) {r : Nat} (found : h[r]? = some o) : o.loose = [] := by
  apply List.eq_nil_iff_forall_not_mem.2
  intro c member
  exact Nat.not_le.2 (List.getElem?_eq_some_iff.1 found).1 (tidy.loose r o found c member).1

theorem Heap.Tidy.concat_read (tidy : h.Tidy h.length) (own : o.Tidy h) (closed : o.loose = []) :
    Heap.Tidy (h ++ [o]).length (h ++ [o]) := by
  have longer : h <+: h ++ [o] := List.prefix_append h [o]
  refine ⟨fun r p found => ?_, fun r p found c member => ?_, fun r value found => ?_, Nat.le_refl _⟩
  · rcases getElem?_concat_cases found with old | ⟨_, rfl⟩
    · exact (tidy.objects r p old).evolves (.of_longer longer)
    · exact own.evolves (.of_longer longer)
  · rcases getElem?_concat_cases found with old | ⟨_, rfl⟩
    · rw [tidy.closed old] at member
      cases member
    · rw [closed] at member
      cases member
  · obtain ⟨p, here, _⟩ := Option.map_eq_some_iff.1 found
    exact (List.getElem?_eq_some_iff.1 here).1

theorem Object.Tidy.bare {form : Form Ref} (inside : ∀ c : Nat, c ∈ form.children → c < h.length)
    (once : form.children.Nodup) : (⟨form, none⟩ : Object).Tidy h where
  inside c listed := inside c (by rwa [Heap.refs_fresh] at listed)
  once := once
  shown := .nil
  complete marks layout := by cases layout
  enclosed _ _ _ marks _ layout := by cases layout

namespace Object

theorem eq_of_exchanged {cs : List Ref} (fresh : new ∉ cs) : ∀ c ∈ cs, ∀ d ∈ cs,
    (if c = old then new else c) = (if d = old then new else d) → c = d := by
  intro c hc d hd same
  by_cases first : c = old <;> by_cases second : d = old
  · rw [first, second]
  · rw [if_pos first, if_neg second] at same
    exact absurd (same ▸ hd) fresh
  · rw [if_neg first, if_pos second] at same
    exact absurd (same ▸ hc) fresh
  · rwa [if_neg first, if_neg second] at same

theorem Tidy.exchange (tidy : o.Tidy h) (evolves : h.Evolves h') (bound : new < h'.length)
    (fresh : new ∉ o.refs) (kept : ∀ marks, o.layout = some marks → old ∈ o.form.children → .node old ∈ marks) :
    (o.map fun r => if r = old then new else r).Tidy h' := by
  have inj : ∀ c ∈ o.refs, ∀ d ∈ o.refs, (if c = old then new else c) = (if d = old then new else d) → c = d :=
    eq_of_exchanged fresh
  have listed : (o.map fun r => if r = old then new else r).form.children =
      o.form.children.map fun r => if r = old then new else r := Form.children_map _ _
  refine ⟨fun c member => ?_, ?_, ?_, fun marks layout c child => ?_, ?_⟩
  · rw [refs_map inj] at member
    obtain ⟨d, hd, rfl⟩ := List.mem_map.1 member
    split
    · exact bound
    · exact Nat.lt_of_lt_of_le (tidy.inside d hd) evolves.grown
  · rw [listed]
    exact tidy.once.map_on fun c hc d hd => inj c (mem_refs.2 (.inl hc)) d (mem_refs.2 (.inl hd))
  · rw [marked_map]
    exact tidy.shown.map_on fun c hc d hd => inj c (mem_refs.2 (.inr hc)) d (mem_refs.2 (.inr hd))
  · obtain ⟨marks', layout', rfl⟩ := Option.map_eq_some_iff.1 layout
    rw [listed] at child
    obtain ⟨d, hd, rfl⟩ := List.mem_map.1 child
    have shows : Mark.node d ∈ marks' → .node (if d = old then new else d) ∈
        marks'.map (Mark.map fun r => if r = old then new else r) :=
      fun member => List.mem_map.2 ⟨_, member, rfl⟩
    by_cases gone : d = old
    · exact .inl (shows (gone ▸ kept marks' layout' (gone ▸ hd)))
    · refine (tidy.complete marks' layout' d hd).imp shows fun omits => ?_
      rw [if_neg gone]
      obtain ⟨form, found, omitted⟩ := omits.evolves evolves
      exact ⟨form, found, by simpa [map] using omitted⟩
  · intro opening content closing marks form layout c child
    obtain ⟨marks', layout', rfl⟩ := Option.map_eq_some_iff.1 layout
    obtain ⟨before, after⟩ := o
    cases before with
    | element opening' content' closing' =>
        simp only [map, Form.map, Form.element.injEq, Option.map_eq_some_iff] at form
        obtain ⟨⟨first, rfl, rfl⟩, rfl, last, rfl, rfl⟩ := form
        obtain ⟨d, hd, rfl⟩ := List.mem_map.1 child
        exact (tidy.enclosed first content' last marks' rfl layout' d hd).map
          (Mark.map fun r => if r = old then new else r)
    | _ => cases form

theorem loose_exchange (child : old ∈ o.form.children) {c : Ref}
    (member : c ∈ (o.map fun r => if r = old then new else r).loose) : c ∈ o.loose := by
  obtain ⟨shown, other⟩ := mem_loose.1 member
  rw [marked_map] at shown
  obtain ⟨d, hd, rfl⟩ := List.mem_map.1 shown
  have listed : (o.map fun r => if r = old then new else r).form.children =
      o.form.children.map fun r => if r = old then new else r := Form.children_map _ _
  rw [listed] at other
  have outside : d ∉ o.form.children := fun own => other (List.mem_map_of_mem own)
  have stays : d ≠ old := fun same => outside (same ▸ child)
  rw [if_neg stays]
  exact mem_loose.2 ⟨hd, outside⟩

end Object

namespace Heap

section

variable {parent : Ref} {p : Object}

theorem form?_set (found : h[parent]? = some o) (p : Object) (r : Ref) :
    Heap.form? (h.set parent p) r = if r = parent then some p.form else h.form? r := by
  have bound : parent < h.length := (List.getElem?_eq_some_iff.1 found).1
  by_cases own : r = parent
  · simp [form?, own, bound]
  · simp [form?, own, List.getElem?_set_ne (Ne.symm own)]

theorem Evolves.set (found : h[parent]? = some o) (leaf : o.form.isLeaf = true → p.form = o.form) :
    h.Evolves (h.set parent p) := by
  refine ⟨by simp, fun c form here childless => ?_⟩
  rw [form?_set found]
  split
  · rename_i own
    rw [own, form?_eq found] at here
    cases here
    rw [leaf childless]
  · exact here

theorem Tidy.set (tidy : h.Tidy read) (found : h[parent]? = some o)
    (leaf : o.form.isLeaf = true → p.form = o.form) (own : p.Tidy (h.set parent p))
    (loose : ∀ c ∈ p.loose, c ∈ o.loose ∧ ∃ content, p.form = .fragment content)
    (text : ∀ value, p.form = .text value → o.form = .text value)
    (content : ∀ c value opening content closing, h.form? c = some (.text value) →
      o.form = .element opening content closing → c ∈ content →
        ∃ opening content closing, p.form = .element opening content closing ∧ c ∈ content) :
    Heap.Tidy read (h.set parent p) := by
  have evolves : h.Evolves (h.set parent p) := .set found leaf
  have spacing : ∀ {c}, h.Spacing c → Spacing (h.set parent p) c := by
    rintro c ⟨⟨value, text, blank⟩, e, opening, inner, closing, element, member⟩
    refine ⟨⟨value, evolves.leaves c _ text rfl, blank⟩, e, ?_⟩
    rw [form?_set found]
    split
    · rename_i same
      rw [same, form?_eq found] at element
      obtain ⟨opening', inner', closing', form, member'⟩ :=
        content c value _ _ _ text (Option.some.inj element) member
      exact ⟨opening', inner', closing', congrArg some form, member'⟩
    · exact ⟨opening, inner, closing, element, member⟩
  have cases_of : ∀ {r : Nat} {q : Object}, (h.set parent p)[r]? = some q →
      r = parent ∧ q = p ∨ h[r]? = some q := by
    intro r q here
    rw [List.getElem?_set] at here
    split at here
    · rename_i same
      split at here
      · cases here
        exact .inl ⟨same.symm, rfl⟩
      · cases here
    · exact .inr here
  refine ⟨fun r q here => ?_, fun r q here c member => ?_, fun r value here => ?_, ?_⟩
  · rcases cases_of here with ⟨_, rfl⟩ | here
    · exact own
    · exact (tidy.objects r q here).evolves evolves
  · rcases cases_of here with ⟨rfl, rfl⟩ | here
    · obtain ⟨before, fragment⟩ := loose c member
      obtain ⟨made, _, dropped⟩ := tidy.loose r o found c before
      exact ⟨made, fragment, spacing dropped⟩
    · obtain ⟨made, fragment, dropped⟩ := tidy.loose r q here c member
      exact ⟨made, fragment, spacing dropped⟩
  · rw [form?_set found] at here
    split at here
    · rename_i same
      apply tidy.texts r value
      rw [same, form?_eq found, text value (Option.some.inj here)]
    · exact tidy.texts r value here
  · rw [List.length_set]
    exact tidy.start

end

theorem replaceChild_eq_ok {parent : Ref} (done : h.replaceChild parent old new = .ok h') :
    ∃ o, h[parent]? = some o ∧ old ∈ o.form.children ∧
      h' = h.set parent (o.map fun r => if r = old then new else r) := by
  unfold replaceChild at done
  split at done
  · rename_i o found
    cases done
    obtain ⟨here, child⟩ := Option.filter_eq_some_iff.1 found
    exact ⟨o, here, by simpa using child, rfl⟩
  · cases done

theorem Tidy.replaceChild {parent : Ref} (tidy : h.Tidy read) (bound : new < h.length)
    (fresh : ∀ o : Object, h[parent]? = some o → new ∉ o.refs) (markup : h.isMarkup old = true)
    (done : h.replaceChild parent old new = .ok h') : h'.Tidy read := by
  obtain ⟨o, found, child, rfl⟩ := replaceChild_eq_ok done
  have leaf : o.form.isLeaf = true → (o.map fun r => if r = old then new else r).form = o.form :=
    fun leaf => Form.map_of_isLeaf leaf _
  have evolves : h.Evolves (h.set parent (o.map fun r => if r = old then new else r)) := .set found leaf
  -- Markup is never left out of a text.
  have kept : ∀ marks, o.layout = some marks → old ∈ o.form.children → .node old ∈ marks := by
    intro marks layout child
    rcases (tidy.objects parent o found).complete marks layout old child with shown | ⟨form, here, omits⟩
    · exact shown
    · unfold isMarkup at markup
      rw [here] at markup
      cases own : o.form <;> cases form <;> simp [own, Form.omits] at omits markup
  apply tidy.set found leaf
  · have inside := Nat.lt_of_lt_of_le bound evolves.grown
    exact (tidy.objects parent o found).exchange evolves inside (fresh o found) kept
  · intro c member
    have before := Object.loose_exchange child member
    obtain ⟨_, ⟨content, form⟩, _⟩ := tidy.loose parent o found c before
    exact ⟨before, _, by rw [Object.map, form]; rfl⟩
  · intro value form
    cases own : o.form <;> simp [own, Object.map, Form.map] at form ⊢
    exact form
  · intro c value opening content closing text form member
    have stays : c ≠ old := by
      rintro rfl
      simp [isMarkup, text] at markup
    refine ⟨_, _, _, by rw [Object.map, form]; rfl, ?_⟩
    exact List.mem_map.2 ⟨c, member, if_neg stays⟩

end Heap

end InPlace

end JsxBoundary
