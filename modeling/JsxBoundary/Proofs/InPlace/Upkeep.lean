import JsxBoundary.Proofs.InPlace.Layouts

namespace JsxBoundary.InPlace

variable {read : Nat} {h h' : Heap} {o : Object} {r body : Ref}

def Added (h h' : Heap) (r : Nat) : Prop :=
  h.length ≤ r ∧ r < h'.length

namespace Build

def Tidies {α : Type} (read : Nat) (h : Heap) (make : Build α) (R : Heap → α → Prop) : Prop :=
  h <+: (make h).2 ∧ (make h).2.Tidy read ∧ R (make h).2 (make h).1

namespace Tidies

variable {α β : Type} {R : Heap → α → Prop} {T : Heap → β → Prop}

theorem pure {a : α} (tidy : h.Tidy read) (related : R h a) : Tidies read h (Pure.pure a) R :=
  ⟨List.prefix_refl h, tidy, related⟩

theorem get {f : Heap → Build α} (next : Tidies read h (f h) R) : Tidies read h (MonadState.get >>= f) R :=
  next

theorem bind {make : Build α} {f : α → Build β} (first : Tidies read h make R)
    (next : ∀ (h' : Heap) a, h <+: h' → h'.Tidy read → R h' a → Tidies read h' (f a) T) :
    Tidies read h (make >>= f) T := by
  obtain ⟨longer, tidy, related⟩ := first
  obtain ⟨longer', tidy', related'⟩ := next _ _ longer tidy related
  exact ⟨longer.trans longer', tidy', related'⟩

theorem mono {S : Heap → α → Prop} {make : Build α} (first : Tidies read h make R)
    (weaken : ∀ (h' : Heap) a, h <+: h' → R h' a → S h' a) : Tidies read h make S := by
  obtain ⟨longer, tidy, related⟩ := first
  exact ⟨longer, tidy, weaken _ _ longer related⟩

theorem alloc {form : Form Ref} {layout : Option (List Mark)} (tidy : h.Tidy read)
    (own : Object.Tidy h ⟨form, layout⟩) (closed : Object.loose ⟨form, layout⟩ = [])
    (text : form.isText = false) : Tidies read h (Build.alloc form layout) (Added h) := by
  refine ⟨List.prefix_append h _, tidy.concat own (fun c member => ?_) text, Nat.le_refl _, ?_⟩
  · rw [closed] at member
    cases member
  · simp

theorem bare {form : Form Ref} (tidy : h.Tidy read) (inside : ∀ c : Nat, c ∈ form.children → c < h.length)
    (once : form.children.Nodup) (text : form.isText = false) : Tidies read h (Build.alloc form) (Added h) :=
  alloc tidy (.bare inside once) rfl text

theorem leaf {form : Form Ref} (tidy : h.Tidy read) (childless : form.children = []) (text : form.isText = false) :
    Tidies read h (Build.alloc form) (Added h) := by
  apply bare tidy _ _ text
  · rw [childless]
    intro c member
    cases member
  · rw [childless]
    exact .nil

theorem around {form : Form Ref} (tidy : h.Tidy read) (lone : form.children = [r]) (bound : r < h.length)
    (text : form.isText = false) : Tidies read h (Build.alloc form) (Added h) := by
  apply bare tidy _ _ text
  · rw [lone]
    intro c member
    cases List.mem_singleton.1 member
    exact bound
  · rw [lone]
    exact List.nodup_singleton r

end Tidies

/-! ## Functions and boundaries -/

theorem opened_tidies (tidy : h.Tidy read) (bound : body < h.length) {marks : List Mark}
    (shown : Mark.refs marks = [body]) :
    Tidies read h (alloc (.arrow body none) (some marks)) (Added h) := by
  have marked : Object.marked ⟨.arrow body none, some marks⟩ = [body] := shown
  have closed : Object.loose ⟨.arrow body none, some marks⟩ = [] := by
    simp [Object.loose, marked, Form.children]
  refine .alloc tidy ⟨fun c member => ?_, ?_, ?_, fun marks' layout c child => ?_,
    fun _ _ _ _ form => by cases form⟩ closed rfl
  · rw [Object.refs, closed] at member
    have same : c = body := by simpa [Form.children] using member
    exact same ▸ bound
  · simp [Form.children]
  · simp [marked]
  · cases layout
    have same : c = body := by simpa [Form.children] using child
    exact .inl (Mark.mem_refs.1 (by simp [shown, same]))

theorem thunk_tidies (tidy : h.Tidy read) (bound : body < h.length) {source : Option Ref}
    (around : ∀ c ∈ source, h.form? c = some (.container body)) :
    Tidies read h (thunk body source) (Added h) := by
  unfold thunk
  apply Tidies.get
  cases shown : (source.bind h.layout?).filter (·.contains (.node body)) with
  | none =>
      refine Tidies.bind (.around tidy rfl bound rfl) fun h₁ arrow longer tidy₁ added => ?_
      refine .mono (.around tidy₁ rfl added.2 rfl) ?_
      exact fun h₂ r _ last => ⟨longer.length_le.trans last.1, last.2⟩
  | some marks =>
      obtain ⟨layout, contained⟩ := Option.filter_eq_some_iff.1 shown
      obtain ⟨c, from_, written⟩ := Option.bind_eq_some_iff.1 layout
      obtain ⟨o, found, written⟩ := Option.bind_eq_some_iff.1 written
      obtain ⟨form, marks'⟩ := o
      cases written
      have own : form = .container body := by
        have seen := around c from_
        rw [Heap.form?_eq found] at seen
        exact Option.some.inj seen
      subst own
      have before := tidy.objects c _ found
      apply Tidies.bind (R := Added h)
      · split <;> exact opened_tidies tidy bound rfl
      · intro h₁ arrow longer tidy₁ added
        have fresh : arrow ∉ Object.refs ⟨.container body, some marks⟩ :=
          fun listed => Nat.not_le.2 (before.inside arrow listed) added.1
        have changed := before.exchange (.of_longer longer) added.2 fresh fun _ same _ => by
          cases same
          simpa using contained
        have same : (⟨.container body, some marks⟩ : Object).map (fun r => if r = body then arrow else r) =
            ⟨.container arrow, some (marks.map (Mark.map fun r => if r = body then arrow else r))⟩ := by
          simp [Object.map, Form.map]
        rw [same] at changed
        have closed : Object.loose ⟨.container arrow,
            some (marks.map (Mark.map fun r => if r = body then arrow else r))⟩ = [] := by
          apply List.eq_nil_iff_forall_not_mem.2
          intro d member
          rw [← same] at member
          obtain ⟨_, ⟨content, form⟩, _⟩ :=
            tidy.loose c _ found d (Object.loose_exchange (by simp [Form.children]) member)
          cases form
        apply (Tidies.alloc tidy₁ changed closed rfl).mono
        exact fun h₂ r _ last => ⟨longer.length_le.trans last.1, last.2⟩

theorem boundary_tidies (component : String) (tidy : h.Tidy read) (bound : body < h.length)
    {source : Option Ref} (around : ∀ c ∈ source, h.form? c = some (.container body)) :
    Tidies read h (boundary component body source) (Added h) := by
  unfold boundary
  refine .bind (.leaf tidy rfl rfl) fun h₁ name longer₁ tidy₁ added₁ => ?_
  refine .bind (.around tidy₁ rfl added₁.2 rfl) fun h₂ opening longer₂ tidy₂ added₂ => ?_
  have upto₂ := longer₁.trans longer₂
  refine .bind (thunk_tidies tidy₂ (Nat.lt_of_lt_of_le bound upto₂.length_le) fun c same =>
    Heap.form?_of_longer upto₂ (around c same)) fun h₃ inner longer₃ tidy₃ added₃ => ?_
  refine .bind (.leaf tidy₃ rfl rfl) fun h₄ name' longer₄ tidy₄ added₄ => ?_
  refine .bind (.around tidy₄ rfl added₄.2 rfl) fun h₅ closing longer₅ tidy₅ added₅ => ?_
  have le₂ := upto₂.length_le
  have le₃ := longer₃.length_le
  have le₄ := longer₄.length_le
  have le₅ := longer₅.length_le
  obtain ⟨low₂, high₂⟩ := added₂
  obtain ⟨low₃, high₃⟩ := added₃
  obtain ⟨low₅, high₅⟩ := added₅
  refine .mono (.bare tidy₅ ?_ ?_ rfl) fun h₆ r _ last => ⟨by have := last.1; omega, last.2⟩
  · simp only [Form.children, Option.toList_some, List.cons_append, List.nil_append, List.mem_cons,
      List.not_mem_nil, or_false]
    rintro c (rfl | rfl | rfl) <;> omega
  · have first : opening ≠ inner := Nat.ne_of_lt (by omega)
    have second : opening ≠ closing := Nat.ne_of_lt (by omega)
    have third : inner ≠ closing := Nat.ne_of_lt (by omega)
    simp [Form.children, first, second, third]

/-! ## Deferred children -/

theorem split_of_sublist {α : Type} {a b c : α} {xs : List α} (sub : [a, b, c].Sublist xs) :
    ∃ front middle back, xs = front ++ a :: (middle ++ c :: back) ∧ b ∈ middle := by
  obtain ⟨_, rest, rfl, first, sub'⟩ := List.cons_sublist_iff.1 sub
  obtain ⟨front, more, rfl⟩ := List.append_of_mem first
  obtain ⟨middle, last, rfl, second, sub''⟩ := List.cons_sublist_iff.1 sub'
  obtain ⟨rest, back, rfl⟩ := List.append_of_mem (List.singleton_sublist.1 sub'')
  exact ⟨front, more ++ (middle ++ rest), back, by simp, by simp [second]⟩

theorem mem_innerMarks {opening closing c : Ref} {marks inner : List Mark} (found : h[r]? = some o)
    (layout : o.layout = some marks) (shown : o.marked.Nodup)
    (enclosed : [.node opening, .node c, .node closing].Sublist marks)
    (cut : h.innerMarks r opening (some closing) = some inner) : .node c ∈ inner := by
  obtain ⟨front, middle, back, rfl, between⟩ := split_of_sublist enclosed
  have once : (Mark.refs (front ++ .node opening :: (middle ++ .node closing :: back))).Nodup := by
    rwa [Object.marked, layout] at shown
  have start := findIdx?_node once
  have regroup : front ++ .node opening :: (middle ++ .node closing :: back) =
      (front ++ .node opening :: middle) ++ .node closing :: back := by simp
  rw [regroup] at once
  have stop := findIdx?_node once
  rw [← regroup] at stop
  have written : h.layout? r = o.layout := by simp [Heap.layout?, found]
  unfold Heap.innerMarks at cut
  rw [written, layout] at cut
  simp only [Option.bind_eq_bind, Option.bind_some, start, stop, Option.pure_def, Option.some.injEq] at cut
  have same : (front ++ .node opening :: middle).drop (front.length + 1) = middle := by
    rw [← List.drop_drop, List.drop_left, List.drop_one, List.tail_cons]
  rw [regroup, List.take_left, same] at cut
  exact cut ▸ between

theorem form_tree {c : Nat} (found : h[c]? = some o) :
    ∃ t : Ref → Node, (h.tree c).form = o.form.map t := by
  have bound : c < h.length := (List.getElem?_eq_some_iff.1 found).1
  obtain ⟨depth, same⟩ : ∃ depth, h.length = depth + 1 := ⟨h.length - 1, by omega⟩
  refine ⟨h.treeWithin depth, ?_⟩
  rw [Heap.tree, same, Heap.treeWithin, found]
  rfl

theorem text_of_isBlankText {c : Nat} (bound : c < h.length) (blank : (h.tree c).isBlankText = true) :
    ∃ value, h.form? c = some (.text value) ∧ Text.isBlank value = true := by
  have found := List.getElem?_eq_getElem bound
  obtain ⟨t, form⟩ := form_tree found
  unfold Node.isBlankText at blank
  rw [form] at blank
  rw [Heap.form?_eq found]
  cases own : h[c].form with
  | text value =>
      rw [own] at blank
      exact ⟨value, rfl, blank⟩
  | _ =>
      rw [own] at blank
      cases blank

theorem fragment_tidy {opening : Ref} {content : List Ref} {closing : Option Ref} (tidy : h.Tidy read)
    (found : h[r]? = some o) (own : o.form = .element (some opening) content closing) :
    let F := fragmentObject (content.filter fun c => !(h.tree c).isBlankText) (h.innerMarks r opening closing)
    F.Tidy h ∧ ∀ c ∈ F.loose, h.Spacing c := by
  intro F
  have before := tidy.objects r o found
  have listed : o.form.children = opening :: (content ++ closing.toList) := by rw [own]; rfl
  have closed : ∀ c ∈ o.marked, c ∈ o.form.children := by
    intro c shown
    by_contra outside
    obtain ⟨_, ⟨content, form⟩, _⟩ := tidy.loose r o found c (Object.mem_loose.2 ⟨shown, outside⟩)
    rw [own] at form
    cases form
  have child : ∀ c ∈ content, c ∈ o.form.children := fun c member => by simp [listed, member]
  have unique : content.Nodup := by
    have all := before.once
    rw [listed] at all
    exact (List.nodup_append.1 (List.nodup_cons.1 all).2).1
  cases cut : h.innerMarks r opening closing with
  | none =>
      have bare : F = ⟨.fragment (content.filter fun c => !(h.tree c).isBlankText), none⟩ := by
        simp [F, fragmentObject, cut]
      rw [bare]
      refine ⟨.bare (fun c member => ?_) (unique.filter _), fun c member => by cases member⟩
      exact before.inside c (Object.mem_refs.2 (.inl (child c (List.mem_filter.1 member).1)))
  | some inner =>
      obtain ⟨sub, apart, apart'⟩ := innerMarks_refs found before.shown cut
      have marked : F.marked = Mark.refs inner := by
        simp [F, cut, fragmentObject, Object.marked, Mark.refs, Mark.ref?, List.filterMap_cons]
      have between : ∀ c ∈ F.marked, c ∈ content := by
        intro c shown
        rw [marked] at shown
        have part := closed c (sub.subset shown)
        rw [listed, List.mem_cons, List.mem_append, Option.mem_toList] at part
        rcases part with rfl | part | tag
        · exact absurd shown apart
        · exact part
        · exact absurd shown (apart' c tag)
      have bound : ∀ c : Nat, c ∈ content → c < h.length :=
        fun c member => before.inside c (Object.mem_refs.2 (.inl (child c member)))
      refine ⟨⟨fun c member => ?_, unique.filter _, ?_, fun marks layout c kept => .inl ?_,
        fun _ _ _ _ form => by cases form⟩, fun c member => ?_⟩
      · rcases Object.mem_refs.1 member with kept | shown
        · exact bound c (List.mem_filter.1 kept).1
        · exact bound c (between c shown)
      · rw [marked]
        exact before.shown.sublist sub
      · -- The element showed the child between its tags, and that is what was cut out.
        have own' : c ∈ content := (List.mem_filter.1 kept).1
        have written : marks = .text "<>" :: inner ++ [.text "</>"] := by
          simpa [F, fragmentObject, cut] using layout.symm
        have cut' := cut
        simp only [Heap.innerMarks, Option.bind_eq_bind, Option.bind_eq_some_iff] at cut'
        obtain ⟨all, source, last, rfl, _⟩ := cut'
        rw [Heap.layout?, found, Option.bind_some] at source
        have inside := mem_innerMarks found source before.shown
          (before.enclosed opening content last all own source c own') cut
        rw [written]
        simp [inside]
      · obtain ⟨shown, dropped⟩ := Object.mem_loose.1 member
        have part := between c shown
        have element : h.form? r = some (.element (some opening) content closing) := own ▸ Heap.form?_eq found
        refine ⟨text_of_isBlankText (bound c part) ?_, r, _, _, _, element, part⟩
        -- All other content was kept.
        by_contra solid
        exact dropped (List.mem_filter.2 ⟨part, by simpa using solid⟩)

theorem loneContainer?_some {kept : List Ref} {c : Ref} (lone : h.loneContainer? kept = some c) :
    kept = [c] ∧ (h.tree c).contained?.isSome = true := by
  unfold Heap.loneContainer? at lone
  split at lone
  · split at lone <;> cases lone
    exact ⟨rfl, ‹_›⟩
  · cases lone

theorem deferredBody_tidies {opening : Ref} {content kept : List Ref} {closing : Option Ref}
    (tidy : h.Tidy read) (found : h[r]? = some o) (own : o.form = .element (some opening) content closing)
    (rest : content.filter (fun c => !(h.tree c).isBlankText) = kept) :
    Tidies read h (deferredBody r opening closing kept) fun h' body => ∀ b : Nat, b ∈ body →
      b < h'.length ∧ ∀ c ∈ h.loneContainer? kept, h'.form? c = some (.container b) := by
  obtain ⟨fragment, blank⟩ := fragment_tidy tidy found own
  rw [rest] at fragment blank
  have several : h.loneContainer? kept = none →
      Tidies read h (some <$> alloc (.fragment kept) ((h.innerMarks r opening closing).map fun inner =>
        .text "<>" :: inner ++ [.text "</>"])) fun h' body => ∀ b : Nat, b ∈ body →
          b < h'.length ∧ ∀ c ∈ h.loneContainer? kept, h'.form? c = some (.container b) := by
    intro none
    refine ⟨List.prefix_append h _, tidy.concat fragment (fun c loose => ⟨⟨kept, rfl⟩, blank c loose⟩) rfl, ?_⟩
    intro b same
    rw [none]
    cases Option.mem_some_iff.1 same
    exact ⟨by simp, fun c lone => by cases lone⟩
  unfold deferredBody
  apply Tidies.get
  rcases kept with _ | ⟨c, _ | ⟨d, more⟩⟩
  · exact several rfl
  · have listed : c ∈ content := (List.mem_filter.1 (rest ▸ List.mem_singleton_self c)).1
    have bound : (c : Nat) < h.length := by
      apply (tidy.objects r o found).inside
      exact Object.mem_refs.2 (.inl (by simp [own, Form.children, listed]))
    have here := List.getElem?_eq_getElem bound
    obtain ⟨t, seen⟩ := form_tree here
    dsimp only
    rw [Heap.form?_eq here]
    cases kind : h[c].form with
    | element first middle last =>
        refine .pure tidy fun b same => ?_
        cases Option.mem_some_iff.1 same
        refine ⟨bound, fun d lone => ?_⟩
        obtain ⟨same, contained⟩ := loneContainer?_some lone
        cases same
        simp [Node.contained?, seen, kind, Form.map] at contained
    | container e =>
        refine .pure tidy fun b same => ?_
        split at same
        · cases same
        · cases Option.mem_some_iff.1 same
          refine ⟨(tidy.objects c _ here).inside e ?_, fun d lone => ?_⟩
          · exact Object.mem_refs.2 (.inl (by simp [kind, Form.children]))
          · obtain ⟨same, _⟩ := loneContainer?_some lone
            cases same
            rw [Heap.form?_eq here, kind]
    | _ => exact .pure tidy fun b none => by cases none
  · exact several rfl

theorem deferral_tidies (tidy : h.Tidy read) (r : Ref) :
    Tidies read h (deferral r) fun h' c => ∀ b ∈ c, Added h h' b := by
  unfold deferral
  apply Tidies.get
  cases found : h[r]? with
  | none =>
      have refused : h.deferrable? r = none := by simp [Heap.deferrable?, Heap.form?, found]
      rw [refused]
      exact .pure tidy fun b none => by cases none
  | some o =>
      rcases deferChildren?_toNode found with ⟨refused, _⟩ |
        ⟨opening, content, closing, kept, accepted, own, rest, _⟩
      · rw [refused]
        exact .pure tidy fun b none => by cases none
      · rw [accepted]
        refine .bind (deferredBody_tidies tidy found own rest) fun h₁ body longer₁ tidy₁ fits => ?_
        cases body with
        | none => exact .pure tidy₁ fun b none => by cases none
        | some body =>
            obtain ⟨bound, source⟩ := fits body rfl
            refine .bind (thunk_tidies tidy₁ bound source) fun h₂ inner longer₂ tidy₂ added => ?_
            have before := tidy.objects r o found
            have listed : o.form.children = opening :: (content ++ closing.toList) := by rw [own]; rfl
            have inside : ∀ c : Nat, c ∈ o.form.children → c < h.length :=
              fun c child => before.inside c (Object.mem_refs.2 (.inl child))
            have upto := (longer₁.trans longer₂).length_le
            have one := longer₁.length_le
            have tags : ∀ c : Nat, c = opening ∨ c ∈ closing → c < h.length := by
              rintro c (rfl | tag)
              · exact inside _ (by simp [listed])
              · exact inside c (by simp [listed, Option.mem_toList.2 tag])
            have other : ∀ c : Nat, c = opening ∨ c ∈ closing → c ≠ inner := by
              intro c tag
              have old := tags c tag
              have new := added.1
              exact Nat.ne_of_lt (by omega)
            have apart : opening ∉ closing := by
              have all := before.once
              rw [listed] at all
              exact fun tag => (List.nodup_cons.1 all).1 (List.mem_append_right _ (Option.mem_toList.2 tag))
            have made : Tidies read h₂ (alloc (.element (some opening) [inner] closing)) (Added h₂) := by
              refine .bare tidy₂ (fun c child => ?_) ?_ rfl
              · simp only [Form.children, Option.toList_some, List.cons_append, List.nil_append, List.mem_cons,
                  Option.mem_toList] at child
                rcases child with first | rfl | last
                · exact Nat.lt_of_lt_of_le (tags c (.inl first)) upto
                · exact added.2
                · exact Nat.lt_of_lt_of_le (tags c (.inr last)) upto
              · cases closing with
                | none => simpa [Form.children] using other opening (.inl rfl)
                | some closing =>
                    have first := other opening (.inl rfl)
                    have last := (other closing (.inr rfl)).symm
                    have tags : opening ≠ closing := fun same => apart (same ▸ rfl)
                    simp [Form.children, first, last, tags]
            obtain ⟨longer₃, tidy₃, low, high⟩ := made
            refine ⟨longer₃, tidy₃, fun b same => ?_⟩
            cases Option.mem_some_iff.1 same
            exact ⟨upto.trans low, high⟩

end Build

/-! ## Decisions -/

namespace Edit

def Tidies {α : Type} (read : Nat) (h : Heap) (edit : Edit α) (R : Heap → α → Prop) : Prop :=
  ∀ p, h <+: (edit.runFrom ⟨h, p⟩).2.heap ∧ (edit.runFrom ⟨h, p⟩).2.heap.Tidy read ∧
    ∀ a, (edit.runFrom ⟨h, p⟩).1 = .ok a → R (edit.runFrom ⟨h, p⟩).2.heap a

namespace Tidies

variable {α β : Type} {R : Heap → α → Prop} {T : Heap → β → Prop}

theorem pure {a : α} (tidy : h.Tidy read) (related : R h a) : Tidies read h (Pure.pure a) R := by
  refine fun p => ⟨List.prefix_refl h, tidy, fun b same => ?_⟩
  cases same
  exact related

theorem throw (tidy : h.Tidy read) (fault : Fault) :
    Tidies read h (MonadExcept.throw fault : Edit α) R :=
  fun _ => ⟨List.prefix_refl h, tidy, nofun⟩

theorem bind {edit : Edit α} {f : α → Edit β} (first : Tidies read h edit R)
    (next : ∀ (h' : Heap) a, h <+: h' → h'.Tidy read → R h' a → Tidies read h' (f a) T) :
    Tidies read h (edit >>= f) T := by
  intro p
  rw [Edit.runFrom_bind]
  obtain ⟨longer, tidy, related⟩ := first p
  generalize edit.runFrom ⟨h, p⟩ = result at longer tidy related
  obtain ⟨outcome, ⟨h₁, q⟩⟩ := result
  cases outcome with
  | error fault => exact ⟨longer, tidy, nofun⟩
  | ok a =>
      obtain ⟨longer', tidy', related'⟩ := next h₁ a longer tidy (related a rfl) q
      exact ⟨longer.trans longer', tidy', related'⟩

theorem get {f : Store → Edit β} (next : ∀ p, Tidies read h (f ⟨h, p⟩) T) :
    Tidies read h (MonadState.get >>= f) T :=
  fun p => next p p

theorem log {f : PUnit → Edit β} (tidy : h.Tidy read) (change : Progress → Progress)
    (next : Tidies read h (f ⟨⟩) T) : Tidies read h (Edit.log change >>= f) T := by
  have changed : Tidies read h (Edit.log change) fun h' _ => h' = h :=
    fun p => ⟨List.prefix_refl h, tidy, fun _ _ => rfl⟩
  refine changed.bind fun h' _ _ _ same => ?_
  exact same ▸ next

theorem emit {f : String → Edit β} (tidy : h.Tidy read) (r : Ref)
    (next : ∀ text, Tidies read h (f text) T) : Tidies read h (Edit.emit r >>= f) T := by
  have kept : Tidies read h (Edit.emit r) fun h' _ => h' = h := by
    intro p
    rw [Edit.runFrom_emit]
    exact ⟨List.prefix_refl h, tidy, fun _ _ => rfl⟩
  refine kept.bind fun h' text _ _ same => ?_
  exact same ▸ next text

theorem build {make : Build α} (first : Build.Tidies read h make R) : Tidies read h (Edit.build make) R := by
  obtain ⟨longer, tidy, related⟩ := first
  refine fun p => ⟨longer, tidy, fun a same => ?_⟩
  cases same
  exact related

end Tidies

end Edit

open Edit

def Succeeds (h : Heap) (r : Ref) (h' : Heap) (c : Nat) : Prop :=
  c < h'.length ∧ (c = r ∨ h.length ≤ c ∧ h.isMarkup r = true)

variable {s : Settings} {ancestors : List Ref}

theorem Succeeds.of_added {h₁ : Heap} {c : Nat} (longer : h <+: h₁) (markup : h.isMarkup r = true)
    (added : Added h₁ h' c) : Succeeds h r h' c :=
  ⟨added.2, .inr ⟨longer.length_le.trans added.1, markup⟩⟩

theorem bound_of_form? {c : Nat} {form : Form Ref} (found : h.form? c = some form) : c < h.length := by
  obtain ⟨o, here, _⟩ := Option.map_eq_some_iff.1 found
  exact (List.getElem?_eq_some_iff.1 here).1

theorem editContainer_tidies {expression : Ref} (tidy : h.Tidy read)
    (seen : h.form? r = some (.container expression)) :
    Tidies read h (editContainer s ancestors r expression) fun h' a => Succeeds h r h' a.1 := by
  have keep : Tidies read h (pure (r, true)) fun h' (a : Ref × Bool) => Succeeds h r h' a.1 :=
    .pure tidy ⟨bound_of_form? seen, .inl rfl⟩
  unfold editContainer
  refine .get fun p => ?_
  dsimp only
  split
  · exact keep
  · split
    · obtain ⟨o, found, form⟩ := Option.map_eq_some_iff.1 seen
      have inside : (expression : Nat) < h.length := by
        apply (tidy.objects r o found).inside
        exact Object.mem_refs.2 (.inl (by simp [form, Form.children]))
      have around : ∀ c ∈ some r, h.form? c = some (.container expression) :=
        fun c same => Option.mem_some_iff.1 same ▸ seen
      have made := Build.boundary_tidies s.componentName tidy inside around
      refine .bind (.build made) fun h₁ b longer tidy₁ added => .log tidy₁ _ ?_
      refine .emit tidy₁ r fun before => .emit tidy₁ b fun after => .log tidy₁ _ ?_
      exact .pure tidy₁ (.of_added (List.prefix_refl h) (by simp [Heap.isMarkup, seen]) added)
    · exact keep

theorem editDeferral_tidies (tidy : h.Tidy read) (bound : (r : Nat) < h.length) (markup : h.isMarkup r = true) :
    Tidies read h (editDeferral s r) (Succeeds h r) := by
  have keep : Tidies read h (pure r) (Succeeds h r) := .pure tidy ⟨bound, .inl rfl⟩
  unfold editDeferral
  refine .get fun p => ?_
  dsimp only
  split
  · exact keep
  · refine .bind (.build (Build.deferral_tidies tidy r)) fun h₁ c longer tidy₁ added => ?_
    cases c with
    | none => exact .pure tidy₁ ⟨Nat.lt_of_lt_of_le bound longer.length_le, .inl rfl⟩
    | some m =>
        refine .log tidy₁ _ (.emit tidy₁ r fun before => .emit tidy₁ m fun after => .log tidy₁ _ ?_)
        exact .pure tidy₁ (.of_added (List.prefix_refl h) markup (added m rfl))

theorem editElement_tidies (tidy : h.Tidy read) (bound : (r : Nat) < h.length) (markup : h.isMarkup r = true) :
    Tidies read h (editElement s ancestors r) fun h' a => Succeeds h r h' a.1 := by
  unfold editElement
  refine .get fun p => ?_
  dsimp only
  split
  · exact .throw tidy _
  · refine .bind (editDeferral_tidies tidy bound markup) fun h₁ current longer tidy₁ succeeds => .get fun p => ?_
    dsimp only
    split
    · exact .pure tidy₁ succeeds
    · refine .emit tidy₁ current fun before => ?_
      have around : ∀ c ∈ (none : Option Ref), h₁.form? c = some (.container current) := nofun
      have made := Build.boundary_tidies s.componentName tidy₁ succeeds.1 around
      refine .bind (.build made) fun h₂ b longer₂ tidy₂ added => .log tidy₂ _ ?_
      refine .emit tidy₂ b fun after => .log tidy₂ _ ?_
      exact .pure tidy₂ (.of_added longer markup added)

theorem edit_tidies (tidy : h.Tidy read) (bound : (r : Nat) < h.length) :
    Tidies read h (edit s ancestors r) fun h' a => Succeeds h r h' a.1 := by
  unfold edit
  refine .get fun p => ?_
  dsimp only
  split
  · rename_i seen
    exact editElement_tidies tidy bound (by simp [Heap.isMarkup, seen])
  · rename_i seen
    exact editContainer_tidies tidy seen
  · exact .pure tidy ⟨bound, .inl rfl⟩

theorem Machine.visit_tidy {σ : Machine} (tidy : σ.heap.Tidy read)
    (present : ∀ e ∈ σ.stack, (e.node : Nat) < σ.heap.length ∧
      ∀ parent : Nat, parent ∈ e.parent → parent < σ.heap.length) : (visit s σ).heap.Tidy read := by
  obtain ⟨h, stack, p, fault⟩ := σ
  cases fault with
  | some fault => exact tidy
  | none =>
      cases stack with
      | nil => exact tidy
      | cons e rest =>
          obtain ⟨bound, above⟩ := present e (.head _)
          have decided : Edit.Tidies read h (edit s e.ancestors e.node) fun h' a => Succeeds h e.node h' a.1 :=
            edit_tidies tidy bound
          obtain ⟨longer, tidy₁, succeeds⟩ := decided p
          dsimp only at longer tidy₁ succeeds above
          unfold visit
          dsimp only
          generalize (edit s e.ancestors e.node).runFrom ⟨h, p⟩ = result at longer tidy₁ succeeds ⊢
          obtain ⟨outcome, ⟨h₁, q⟩⟩ := result
          cases outcome with
          | error fault => exact tidy₁
          | ok a =>
              obtain ⟨current, descend⟩ := a
              obtain ⟨inside, either⟩ := succeeds _ rfl
              dsimp only at inside either longer tidy₁ ⊢
              cases installed : install h₁ e current with
              | error fault => exact tidy₁
              | ok h₂ =>
                  dsimp only
                  unfold install at installed
                  split at installed
                  · cases installed
                    exact tidy₁
                  · rename_i replaced
                    split at installed
                    · cases installed
                    · rename_i parent own
                      obtain ⟨fresh, markup⟩ := either.resolve_left replaced
                      have old := above parent own
                      refine tidy₁.replaceChild inside (fun o found => ?_) ?_ installed
                      · -- The parent is older than the object that comes into it.
                        have there : h[parent]? = some o := by
                          obtain ⟨more, rfl⟩ := longer
                          rwa [List.getElem?_append_left old] at found
                        intro listed
                        exact Nat.not_le.2 ((tidy.objects parent o there).inside current listed) fresh
                      · unfold Heap.isMarkup at markup ⊢
                        cases seen : h.form? e.node with
                        | none => simp [seen] at markup
                        | some form =>
                            rw [Heap.form?_of_longer longer seen]
                            rw [seen] at markup
                            exact markup

end JsxBoundary.InPlace
