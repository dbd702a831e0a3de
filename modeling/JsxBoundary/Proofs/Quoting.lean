import Mathlib.Data.List.Basic
import JsxBoundary.Tsx.Token

namespace JsxBoundary.Tsx

/-- Text that may stand between double quotes as it is. -/
def quotable : List Char → Bool
  | [] => true
  | '\\' :: '\r' :: '\n' :: rest => quotable rest
  | '\\' :: c :: rest => Parser.escapes (c :: rest) && quotable rest
  | c :: rest => c != '"' && c != '\\' && c != '\n' && c != '\r' && quotable rest

namespace Parser

theorem takeWhile_hex_append (rest more : List Char) :
    (rest ++ '"' :: more).takeWhile isHexDigit = rest.takeWhile isHexDigit := by
  induction rest with
  | nil => rfl
  | cons c rest ih => simp only [List.cons_append, List.takeWhile_cons, ih]

theorem take_takeWhile_hex_append (rest more : List Char) (k : Nat) :
    ((rest ++ '"' :: more).take k).takeWhile isHexDigit = (rest.take k).takeWhile isHexDigit := by
  induction rest generalizing k with
  | nil => cases k <;> rfl
  | cons c rest ih =>
      cases k with
      | zero => rfl
      | succ k => simp only [List.cons_append, List.take_succ_cons, List.takeWhile_cons, ih]

theorem escapes_append (c : Char) (rest more : List Char) :
    escapes (c :: (rest ++ '"' :: more)) = escapes (c :: rest) := by
  by_cases hex : c = 'x'
  · subst hex
    simp only [escapes, take_takeWhile_hex_append]
  by_cases unicode : c = 'u'
  · subst unicode
    cases rest with
    | nil => rfl
    | cons d rest =>
        by_cases brace : d = '\x7b'
        · subst brace
          simp only [List.cons_append, escapes, takeWhile_hex_append]
          congr 1
          have bound := (List.takeWhile_prefix isHexDigit (l := rest)).length_le
          rcases Nat.lt_or_ge (rest.takeWhile isHexDigit).length rest.length with inside | beyond
          · rw [List.getElem?_append_left inside]
          · have last : (rest.takeWhile isHexDigit).length = rest.length := Nat.le_antisymm bound beyond
            rw [last, List.getElem?_append_right (Nat.le_refl _)]
            simp
        · have other : ∀ tail more, d :: tail = '\x7b' :: more → False := fun _ _ same =>
            brace (List.cons.inj same).1
          rw [List.cons_append, escapes.eq_3 _ (other _), escapes.eq_3 _ (other _), ← List.cons_append,
            take_takeWhile_hex_append]
  · simp [escapes, hex, unicode]

theorem quotedRest_ne_nil (quote : Char) (text : List Char) : quotedRest quote text ≠ some [] := by
  intro h
  unfold quotedRest at h
  split at h
  · cases h
  · simp at h
  · split at h <;> simp at h
  · split at h
    · simp at h
    · split at h <;> simp at h

theorem quotedRest_iff (s more : List Char) :
    quotedRest '"' (s ++ '"' :: more) = some (s ++ ['"']) ↔ quotable s = true := by
  induction s using quotable.induct with
  | case1 => simp [quotedRest, quotable]
  | case2 rest ih =>
      simp [quotedRest, quotable, ← ih]
  | case3 c rest other ih =>
      have other' : ∀ tail, c = '\r' → rest ++ '"' :: more = '\n' :: tail → False := by
        intro tail same next
        cases rest with
        | nil => cases next
        | cons d rest =>
            cases next
            exact other rest same rfl
      rw [quotable.eq_3 c rest other, List.cons_append, List.cons_append, quotedRest.eq_3 _ c _ other',
        escapes_append, Bool.and_eq_true, ← ih]
      cases escapes (c :: rest) <;> simp
  | case4 c rest other other' ih =>
      rw [quotable.eq_4 c rest other other', List.cons_append]
      by_cases backslash : c = '\\'
      · -- A backslash at the end escapes the closing quote.
        subst backslash
        cases rest with
        | cons d rest => exact (other' d rest rfl rfl).elim
        | nil =>
            have escaped : escapes ('"' :: more) = true := rfl
            rw [List.nil_append, quotedRest.eq_3 _ _ _ (by rintro _ ⟨⟩), if_pos escaped]
            have none := quotedRest_ne_nil '"' more
            simpa using none
      · rw [quotedRest.eq_4 _ c _ (fun _ same => absurd same backslash) fun _ _ same => absurd same backslash]
        by_cases quote : c = '"'
        · subst quote
          simp
        by_cases breaks : c = '\n' ∨ c = '\r'
        · rcases breaks with rfl | rfl <;> simp
        · rw [not_or] at breaks
          simp [quote, backslash, breaks.1, breaks.2, ih]

end Parser

end JsxBoundary.Tsx
