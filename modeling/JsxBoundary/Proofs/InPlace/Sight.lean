import JsxBoundary.Proofs.Exchange
import JsxBoundary.Proofs.InPlace.Holds

namespace JsxBoundary.InPlace.Heap

variable {h h' : Heap} {r : Ref} {n : Node} {S : Finset Ref} {depth : Nat}

def isMarkup (h : Heap) (r : Ref) : Bool :=
  match h.form? r with
  | some (.element _ _ _) | some (.container _) => true
  | _ => false

def Alike (h : Heap) : Nat → Ref → Node → Prop
  | 0, _, _ => True
  | depth + 1, r, n => ∃ form, h.form? r = some form ∧
      form.Paired (fun c m => h.isMarkup c = true ∧ m.isMarkup = true ∨ h.Alike depth c m) n.form

theorem isMarkup_of_paired {R : Ref → Node → Prop} {form : Form Ref} (found : h.form? r = some form)
    (pairs : form.Paired R n.form) : h.isMarkup r = n.isMarkup := by
  unfold isMarkup Node.isMarkup
  rw [found]
  generalize n.form = other at pairs
  cases pairs <;> rfl

theorem Alike.isMarkup (alike : h.Alike (depth + 1) r n) : h.isMarkup r = n.isMarkup := by
  obtain ⟨form, found, pairs⟩ := alike
  exact isMarkup_of_paired found pairs

theorem Holds.alike (holds : h.Holds r n S) (depth : Nat) : h.Alike depth r n := by
  induction holds generalizing depth with
  | @intro r o tree area found once shown below apart own ih =>
      cases depth with
      | zero => trivial
      | succ depth =>
          refine ⟨o.form, form?_eq found, Form.paired_map fun c child => .inr ?_⟩
          exact ih c (Object.mem_refs.2 (.inl child)) depth

theorem Holds.isMarkup (holds : h.Holds r n S) : h.isMarkup r = n.isMarkup :=
  (holds.alike 1).isMarkup

theorem identifier?_of_isMarkup (markup : h.isMarkup r = true) : h.identifier? r = none := by
  unfold Heap.identifier?
  split
  · rename_i found
    simp [Heap.isMarkup, found] at markup
  · rfl

theorem tagIdentifier?_of_isMarkup (markup : h.isMarkup r = true) : h.tagIdentifier? r = none := by
  unfold tagIdentifier?
  split
  · rename_i found
    simp [Heap.isMarkup, found] at markup
  · rfl

theorem Alike.identifier? (alike : h.Alike 1 r n) : h.identifier? r = n.identifier? := by
  obtain ⟨form, found, pairs⟩ := alike
  unfold Heap.identifier? Node.identifier?
  rw [found]
  generalize n.form = other at pairs
  cases pairs <;> rfl

theorem Alike.tagIdentifier? (alike : h.Alike 2 r n) :
    h.tagIdentifier? r = n.ownTag?.bind (·.name.identifier?) := by
  obtain ⟨form, found, pairs⟩ := alike
  unfold Heap.tagIdentifier? Node.ownTag?
  rw [found]
  generalize n.form = other at pairs
  cases pairs with
  | openingTag selfClosing name attributes =>
      rcases name with ⟨markup, markup'⟩ | name
      · exact (identifier?_of_isMarkup markup).trans (Node.identifier?_of_isMarkup markup').symm
      · exact name.identifier?
  | _ => rfl

theorem Alike.isElementNamed (alike : h.Alike 3 r n) (names : List String) :
    h.isElementNamed names r = n.isElementNamed names := by
  obtain ⟨form, found, pairs⟩ := alike
  unfold Heap.isElementNamed Node.isElementNamed Node.isElement Node.tagName?
  rw [found]
  cases own : n.form with
  | element opening content closing =>
      rw [own] at pairs
      rw [Node.openingTag?_element own]
      cases pairs with
      | @element opening' _ _ _ _ _ tags _ _ =>
          obtain ⟨rfl, rfl⟩ | ⟨opening', opening, rfl, rfl, tag⟩ := tags.of_option
          · rfl
          · have same : h.tagIdentifier? opening' = opening.ownTag?.bind (·.name.identifier?) := by
              rcases tag with ⟨markup, markup'⟩ | tag
              · rw [tagIdentifier?_of_isMarkup markup, Node.ownTag?_of_isMarkup markup']
                rfl
              · exact tag.tagIdentifier?
            simp [same]
  | _ =>
      rw [own] at pairs
      cases pairs <;> rfl

theorem Alike.isCallNamed (alike : h.Alike 3 r n) (names : List String) :
    h.isCallNamed names r = n.isCallNamed names := by
  obtain ⟨form, found, pairs⟩ := alike
  unfold Heap.isCallNamed Node.isCallNamed
  rw [found]
  generalize n.form = other at pairs
  cases pairs with
  | @call c c' _ _ optional callee arguments =>
      have same : h.identifier? c = c'.identifier? := by
        rcases callee with ⟨markup, markup'⟩ | ⟨form, found, callee⟩
        · rw [identifier?_of_isMarkup markup, Node.identifier?_of_isMarkup markup']
        · exact Alike.identifier? ⟨form, found, callee.mono fun _ _ _ => .inr trivial⟩
      simp [same]
  | _ => rfl

theorem Alike.isAttribute (alike : h.Alike 3 r n) : h.isAttribute r = n.isAttribute := by
  obtain ⟨form, found, pairs⟩ := alike
  unfold Heap.isAttribute Node.isAttribute
  rw [found]
  generalize n.form = other at pairs
  cases pairs <;> rfl

def Keeps (h h' : Heap) : Prop :=
  ∀ depth r n, h.Alike depth r n → h'.Alike depth r n

namespace Keeps

theorem refl (h : Heap) : h.Keeps h :=
  fun _ _ _ alike => alike

theorem trans {h'' : Heap} (first : h.Keeps h') (second : h'.Keeps h'') : h.Keeps h'' :=
  fun depth r n alike => second depth r n (first depth r n alike)

theorem of_longer (longer : h <+: h') : h.Keeps h' := by
  have same : ∀ {r form}, h.form? r = some form → h'.form? r = some form := form?_of_longer longer
  have markup : ∀ {r}, h.isMarkup r = true → h'.isMarkup r = true := by
    intro r
    unfold Heap.isMarkup
    cases found : h.form? r with
    | none => exact nofun
    | some form =>
        rw [same found]
        exact id
  intro depth
  induction depth with
  | zero => exact fun _ _ _ => trivial
  | succ depth ih =>
      rintro r n ⟨form, found, pairs⟩
      refine ⟨form, same found, pairs.mono fun c m alike => ?_⟩
      exact alike.imp (And.imp_left markup) (ih c m)

theorem of_set {o : Object} {parent old new : Ref} (found : h[parent]? = some o)
    (changed : h' = h.set parent (o.map fun r => if r = old then new else r))
    (out : h.isMarkup old = true) (into : h.isMarkup new = true) : h.Keeps h' := by
  have bound : parent < h.length := (List.getElem?_eq_some_iff.1 found).1
  have there : h'.form? parent = some (o.form.map fun r => if r = old then new else r) := by
    simp [changed, form?, bound, Object.map]
  have elsewhere : ∀ r, r ≠ parent → h'.form? r = h.form? r := by
    intro r other
    simp [changed, form?, List.getElem?_set_ne other.symm]
  have markup : ∀ r, h'.isMarkup r = h.isMarkup r := by
    intro r
    unfold Heap.isMarkup
    by_cases own : r = parent
    · subst own
      rw [there, form?_eq found]
      cases o.form <;> rfl
    · rw [elsewhere r own]
  intro depth
  induction depth with
  | zero => exact fun _ _ _ => trivial
  | succ depth ih =>
      rintro r n ⟨form, here, pairs⟩
      -- A child that gave way was markup, so the node in its place is markup too.
      have child : ∀ c m, h.isMarkup c = true ∧ m.isMarkup = true ∨ h.Alike depth c m →
          h'.isMarkup (if c = old then new else c) = true ∧ m.isMarkup = true ∨
            h'.Alike depth (if c = old then new else c) m := by
        intro c m related
        by_cases gone : c = old
        · rw [if_pos gone]
          cases depth with
          | zero => exact .inr trivial
          | succ depth =>
              refine .inl ⟨(markup new).trans into, ?_⟩
              rcases related with ⟨_, both⟩ | alike
              · exact both
              · rw [← alike.isMarkup, gone, out]
        · rw [if_neg gone, markup]
          exact related.imp_right (ih c m)
      by_cases own : r = parent
      · subst own
        cases here.symm.trans (form?_eq found)
        have images : o.form.Paired (fun c c' => c' = if c = old then new else c)
            (o.form.map fun c => if c = old then new else c) := Form.paired_map fun _ _ => rfl
        refine ⟨_, there, (images.join pairs).mono ?_⟩
        rintro _ m ⟨c, rfl, related⟩
        exact child c m related
      · refine ⟨form, (elsewhere r own).trans here, pairs.mono fun c m related => ?_⟩
        rw [markup]
        exact related.imp_right (ih c m)

end Keeps

end JsxBoundary.InPlace.Heap
