import JsxBoundary.Text.Blank

/-!
# Edits of source text

`TextEdit` says how the text of a rewritten tree comes out of the source text: tokens of boundaries,
functions, fragments and parentheses are put around parts of it, and in an element whose children are
deferred blank text may go around the tags and around what is put into the function. So the characters
that are not blank all stay, in order (`TextEdit.solid_sublist`), and unless children were deferred every
character stays (`TextEdit.sublist`).
-/

namespace JsxBoundary

/-- The second text is the first one, edited. Blank text goes only if children were deferred. -/
inductive TextEdit (component : String) (deferred : Bool) : String → String → Prop
  | same (t : String) : TextEdit component deferred t t
  | append {a a' b b' : String} (left : TextEdit component deferred a a')
      (right : TextEdit component deferred b b') : TextEdit component deferred (a ++ b) (a' ++ b')
  | function {t t' : String} (inner : TextEdit component deferred t t') :
      TextEdit component deferred t ("() => " ++ t')
  | parens {t t' : String} (inner : TextEdit component deferred t t') :
      TextEdit component deferred t ("(" ++ t' ++ ")")
  | braces {t t' : String} (inner : TextEdit component deferred t t') :
      TextEdit component deferred t ("\x7b" ++ t' ++ "\x7d")
  | fragment {t t' : String} (inner : TextEdit component deferred t t') :
      TextEdit component deferred t ("<>" ++ t' ++ "</>")
  | boundary {t t' : String} (inner : TextEdit component deferred t t')
      (function : ∃ a b, t' = a ++ "() => " ++ b) :
      TextEdit component deferred t
        (("<" ++ component ++ ">") ++ t' ++ ("</" ++ component ++ ">"))
  | deferral {front opening opening' before child child' after closing closing' back : String}
      (allowed : deferred = true) (blank : ∀ t ∈ [front, before, after, back], Text.isBlank t = true)
      (tag : TextEdit component deferred opening opening')
      (inner : TextEdit component deferred child child')
      (function : ∃ a b, child' = a ++ "() => " ++ b)
      (endTag : TextEdit component deferred closing closing') :
      TextEdit component deferred (front ++ (opening ++ (before ++ child ++ after) ++ closing) ++ back)
        (opening' ++ child' ++ closing')

namespace Text

def solid (t : String) : List Char :=
  t.toList.filter (!isBlankChar ·)

@[simp] theorem solid_append (a b : String) : solid (a ++ b) = solid a ++ solid b := by
  simp [solid, String.toList_append]

theorem solid_of_isBlank {t : String} (h : isBlank t = true) : solid t = [] := by
  rw [solid, List.filter_eq_nil_iff]
  intro c member
  have blank := List.all_eq_true.1 h c member
  simp [blank]

end Text

namespace TextEdit

variable {component : String} {deferred : Bool} {t t' : String}

theorem mono {more : Bool} (h : TextEdit component deferred t t') (le : deferred = true → more = true) :
    TextEdit component more t t' := by
  induction h with
  | same t => exact .same t
  | append _ _ left right => exact .append left right
  | function _ inner => exact .function inner
  | parens _ inner => exact .parens inner
  | braces _ inner => exact .braces inner
  | fragment _ inner => exact .fragment inner
  | boundary _ function inner => exact .boundary inner function
  | deferral allowed blank _ _ function _ tag inner endTag =>
      exact .deferral (le allowed) blank tag inner function endTag

theorem sublist_of_additive {collect : String → List Char}
    (additive : ∀ a b, collect (a ++ b) = collect a ++ collect b)
    (blank : deferred = true → ∀ t, Text.isBlank t = true → collect t = [])
    (h : TextEdit component deferred t t') : (collect t).Sublist (collect t') := by
  have around : ∀ {xs : List Char} {inner : String} (front back : String),
      xs.Sublist (collect inner) → xs.Sublist (collect (front ++ inner ++ back)) := by
    intro xs inner front back within
    rw [additive, additive]
    exact (within.trans (List.sublist_append_right _ _)).trans (List.sublist_append_left _ _)
  induction h with
  | same t => exact .refl _
  | append _ _ left right =>
      rw [additive, additive]
      exact left.append right
  | function _ inner =>
      rw [additive]
      exact inner.trans (List.sublist_append_right _ _)
  | parens _ inner | braces _ inner | fragment _ inner | boundary _ _ inner => exact around _ _ inner
  | deferral allowed blanks _ _ _ _ tag inner endTag =>
      have gone : ∀ t ∈ _, collect t = [] := fun t member => blank allowed t (blanks t member)
      simp only [List.mem_cons, List.not_mem_nil, or_false, forall_eq_or_imp, forall_eq] at gone
      obtain ⟨front, before, after, back⟩ := gone
      simp only [additive, front, before, after, back, List.nil_append, List.append_nil]
      exact (tag.append inner).append endTag

theorem solid_sublist (h : TextEdit component deferred t t') :
    (Text.solid t).Sublist (Text.solid t') :=
  h.sublist_of_additive Text.solid_append fun _ _ => Text.solid_of_isBlank

theorem sublist (h : TextEdit component false t t') : t.toList.Sublist t'.toList :=
  h.sublist_of_additive (fun _ _ => String.toList_append) fun allowed => by cases allowed

end TextEdit

/-- The second text is the first one, edited, and has more characters that are not blank. -/
structure TextEnlargement (component : String) (deferred : Bool) (t t' : String) : Prop where
  edit : TextEdit component deferred t t'
  more : (Text.solid t).length < (Text.solid t').length

namespace TextEnlargement

variable {component : String} {deferred : Bool} {t t' a a' b b' : String}

theorem append_left (left : TextEnlargement component deferred a a')
    (right : TextEdit component deferred b b') :
    TextEnlargement component deferred (a ++ b) (a' ++ b') := by
  refine ⟨.append left.edit right, ?_⟩
  have more := left.more
  have kept := right.solid_sublist.length_le
  simp only [Text.solid_append, List.length_append]
  omega

theorem append_right (left : TextEdit component deferred a a')
    (right : TextEnlargement component deferred b b') :
    TextEnlargement component deferred (a ++ b) (a' ++ b') := by
  refine ⟨.append left right.edit, ?_⟩
  have kept := left.solid_sublist.length_le
  have more := right.more
  simp only [Text.solid_append, List.length_append]
  omega

theorem of_token {token rest : String} (inner : TextEdit component deferred t t')
    (edit : TextEdit component deferred t (token ++ t' ++ rest)) (solid : Text.solid token ≠ []) :
    TextEnlargement component deferred t (token ++ t' ++ rest) := by
  refine ⟨edit, ?_⟩
  have kept := inner.solid_sublist.length_le
  have some := List.length_pos_iff.2 solid
  simp only [Text.solid_append, List.length_append]
  omega

theorem function (inner : TextEdit component deferred t t') :
    TextEnlargement component deferred t ("() => " ++ t') := by
  have whole : ("() => " ++ t' : String) = "() => " ++ t' ++ "" := String.append_empty.symm
  rw [whole]
  exact of_token inner (whole ▸ .function inner) (by decide)

theorem braces (inner : TextEdit component deferred t t') :
    TextEnlargement component deferred t ("\x7b" ++ t' ++ "\x7d") :=
  of_token inner (.braces inner) (by decide)

theorem boundary (inner : TextEdit component deferred t t') (function : ∃ a b, t' = a ++ "() => " ++ b) :
    TextEnlargement component deferred t
      (("<" ++ component ++ ">") ++ t' ++ ("</" ++ component ++ ">")) := by
  refine of_token inner (.boundary inner function) fun none => ?_
  have bracket : Text.solid "<" ≠ [] := by decide
  simp [bracket] at none

theorem deferral {front opening opening' before child child' after closing closing' back : String}
    (blank : ∀ t ∈ [front, before, after, back], Text.isBlank t = true)
    (tag : TextEdit component true opening opening') (inner : TextEnlargement component true child child')
    (function : ∃ a b, child' = a ++ "() => " ++ b) (endTag : TextEdit component true closing closing') :
    TextEnlargement component true (front ++ (opening ++ (before ++ child ++ after) ++ closing) ++ back)
      (opening' ++ child' ++ closing') := by
  refine ⟨.deferral rfl blank tag inner.edit function endTag, ?_⟩
  have gone : ∀ t ∈ _, Text.solid t = [] := fun t member => Text.solid_of_isBlank (blank t member)
  simp only [List.mem_cons, List.not_mem_nil, or_false, forall_eq_or_imp, forall_eq] at gone
  obtain ⟨front, before, after, back⟩ := gone
  have kept := tag.solid_sublist.length_le
  have more := inner.more
  have kept' := endTag.solid_sublist.length_le
  simp only [Text.solid_append, front, before, after, back, List.nil_append, List.append_nil,
    List.length_append]
  omega

end TextEnlargement

end JsxBoundary
