import JsxBoundary.Options.Validate
import JsxBoundary.Proofs.ImportText
import JsxBoundary.Proofs.Quoting
import JsxBoundary.Tsx

namespace JsxBoundary.Tsx

def Cursor.clear (size offset : Nat) (rest : List Char) : Cursor :=
  ⟨rest, size, offset, []⟩

def quiet (rest : List Char) : Bool :=
  rest.head?.all fun c => !isSpace c && c != '/'

namespace Parser

open Cursor (clear)

section

variable {α β : Type} {p q : Parser α} {f : α → Parser β} {c c' : Cursor} {a : α}

theorem bind_of (h : p c = some (a, c')) : (p >>= f) c = f a c' := by
  simp [bind, StateT.bind, h]

theorem bind_none (h : p c = none) : (p >>= f) c = none := by
  simp [bind, StateT.bind, h]

theorem orElse_of (h : p c = some (a, c')) : (p <|> q) c = some (a, c') := by
  simp [HOrElse.hOrElse, OrElse.orElse, StateT.orElse, Alternative.orElse, h]

theorem orElse_none (h : p c = none) : (p <|> q) c = q c := by
  simp [HOrElse.hOrElse, OrElse.orElse, StateT.orElse, Alternative.orElse, h]

theorem map_of {g : α → β} (h : p c = some (a, c')) : (g <$> p) c = some (g a, c') := by
  simp [Functor.map, StateT.map, h]

theorem maybe_of (h : p c = some (a, c')) : maybe p c = some (some a, c') := by
  simp [maybe, h]

theorem maybe_none (h : p c = none) : maybe p c = some (none, c) := by
  simp [maybe, h]

theorem get_bind (f : Cursor → Parser β) (c : Cursor) : ((get : Parser Cursor) >>= f) c = f c c := rfl

theorem check_of {b : Bool} (h : b = true) : check b c = some ((), c) := by
  rw [check, h]
  rfl

theorem check_none {b : Bool} (h : b = false) : check b c = none := by
  rw [check, h]
  rfl

theorem would_eq (p : Parser α) (c : Cursor) : would p c = some ((p c).isSome, c) := rfl

theorem many_none (h : p c = none) : many p c = some ([], c) := by
  rw [many, h]

theorem many_cons {as : List α} {c'' : Cursor} (h : p c = some (a, c')) (moves : c'.left < c.left)
    (rest : many p c' = some (as, c'')) : many p c = some (a :: as, c'') := by
  rw [many, h]
  simp [moves, rest]

end

section

variable {size offset : Nat} {rest : List Char} {c : Cursor} {text : String}

theorem exactly_of : exactly text (clear size offset (text.toList ++ rest)) =
    some ((), clear size (offset + text.utf8ByteSize) rest) := by
  simp [exactly, Cursor.clear, List.isPrefixOf_iff_prefix]

theorem exactly_none (other : text.toList.isPrefixOf c.rest = false) : exactly text c = none := by
  simp [exactly, other]

/-! ## Between the tokens -/

theorem comment_none (h : quiet c.rest = true) : comment c = none := by
  have slash : ∀ d : Char, (['/', d] : List Char).isPrefixOf c.rest = false := by
    intro d
    cases same : c.rest with
    | nil => rfl
    | cons x rest =>
        simp only [same, quiet, List.head?_cons, Option.all_some, Bool.and_eq_true, bne_iff_ne] at h
        simp [List.isPrefixOf, Ne.symm h.2]
  have line : comment.lineComment c = none := bind_none (exactly_none (slash '/'))
  have block : comment.blockComment c = none := bind_none (exactly_none (slash '*'))
  have none : (comment.lineComment <|> comment.blockComment) c = none := (orElse_none line).trans block
  exact (bind_of (a := c.offset) rfl).trans (bind_none none)

theorem gap_none (h : quiet rest = true) : gap (clear size offset rest) = none := by
  have spaces : takeWhile isSpace (clear size offset rest) = some ("", clear size offset rest) := by
    cases rest with
    | nil => rfl
    | cons c rest =>
        simp only [quiet, List.head?_cons, Option.all_some, Bool.and_eq_true, Bool.not_eq_true'] at h
        simp [takeWhile, taking, Cursor.clear, h.1]
  exact (bind_of spaces).trans (comment_none h)

theorem gap_space (h : quiet rest = true) :
    gap (clear size offset (' ' :: rest)) =
      some (.blanks (" ".any isLineEnd), clear size (offset + 1) rest) := by
  have spaces : takeWhile isSpace (clear size offset (' ' :: rest)) =
      some (" ", clear size (offset + 1) rest) := by
    have one : isSpace ' ' = true := rfl
    have alone : rest.takeWhile isSpace = [] := by
      cases rest with
      | nil => rfl
      | cons c rest =>
          simp only [quiet, List.head?_cons, Option.all_some, Bool.and_eq_true, Bool.not_eq_true'] at h
          simp [h.1]
    simp only [takeWhile, taking, Cursor.clear, List.takeWhile_cons, one, alone]
    rfl
  exact (bind_of spaces).trans rfl

def Next (c c' : Cursor) : Prop :=
  ∃ breaks, trivia c = some (breaks, c')

theorem Next.bind {c c' : Cursor} {α : Type} {p : Parser α} (h : Next c c') :
    (trivia >>= fun _ => p) c = p c' := by
  obtain ⟨_, h⟩ := h
  exact bind_of h

theorem next_here (h : quiet rest = true) : Next (clear size offset rest) (clear size offset rest) :=
  ⟨_, bind_of (many_none (gap_none h))⟩

theorem next_space (h : quiet rest = true) (inside : offset < size) :
    Next (clear size offset (' ' :: rest)) (clear size (offset + 1) rest) := by
  have moves : (clear size (offset + 1) rest).left < (clear size offset (' ' :: rest)).left := by
    simp only [Cursor.left, Cursor.clear]
    omega
  exact ⟨_, bind_of (many_cons (gap_space h) moves (many_none (gap_none h)))⟩

/-! ## Tokens -/

variable {c' : Cursor} {w : String}

theorem begin_of (h : Next c (clear size offset rest)) : begin c = some (offset, clear size offset rest) :=
  h.bind

theorem word_of (h : Next c (clear size offset (w.toList ++ rest)))
    (begins : beginsName (w.toList ++ rest) = true) (name : nameOf (w.toList ++ rest) = w.toList) :
    word c = some (w, clear size (offset + w.utf8ByteSize) rest) := by
  refine h.bind.trans ?_
  refine (get_bind _ _).trans ((bind_of (check_of begins)).trans ?_)
  simp [taking, Cursor.clear, name]

theorem word_none (h : Next c (clear size offset rest)) (unnamed : beginsName rest = false) : word c = none :=
  h.bind.trans ((get_bind _ _).trans (bind_none (check_none unnamed)))

theorem keyword_of (h : word c = some (w, c')) : keyword w c = some ((), c') :=
  (bind_of h).trans (check_of (beq_self_eq_true w))

theorem keyword_ne (h : word c = some (w, c')) (other : w ≠ text) : keyword text c = none :=
  (bind_of h).trans (check_none (beq_false_of_ne other))

theorem keyword_none (h : word c = none) : keyword text c = none :=
  bind_none h

theorem mark_of (h : Next c (clear size offset (text.toList ++ rest)))
    (found : markOf (text.toList ++ rest) = some text) :
    mark text c = some ((), clear size (offset + text.utf8ByteSize) rest) :=
  h.bind.trans ((get_bind _ _).trans ((bind_of (check_of (beq_iff_eq.2 found))).trans exactly_of))

theorem mark_none (h : Next c (clear size offset rest)) (other : markOf rest ≠ some text) :
    mark text c = none :=
  h.bind.trans ((get_bind _ _).trans (bind_none (check_none (beq_false_of_ne other))))

theorem symbol_of (h : Next c (clear size offset (text.toList ++ rest))) :
    symbol text c = some ((), clear size (offset + text.utf8ByteSize) rest) :=
  h.bind.trans exactly_of

theorem string_of {s : String} (h : Next c (clear size offset ('"' :: (s.toList ++ '"' :: rest))))
    (fits : quotable s.toList = true) :
    string c = some (.mk { kind := "string", start := offset, stop := offset + s.utf8ByteSize + 2 } [],
      clear size (offset + s.utf8ByteSize + 2) rest) := by
  have opens : next (clear size offset ('"' :: (s.toList ++ '"' :: rest))) =
      some ('"', clear size (offset + 1) (s.toList ++ '"' :: rest)) := rfl
  have closes : taking (fun _ => s.toList ++ ['"']) (clear size (offset + 1) (s.toList ++ '"' :: rest)) =
      some (s ++ "\"", clear size (offset + s.utf8ByteSize + 2) rest) := by
    have text : String.ofList (s.toList ++ ['"']) = s ++ "\"" := String.toList_inj.1 (by simp)
    have quote : "\"".utf8ByteSize = 1 := rfl
    simp [taking, Cursor.clear, text, quote]
    omega
  refine (bind_of (begin_of h)).trans ?_
  refine (bind_of opens).trans ?_
  refine (bind_of (check_of rfl)).trans ((get_bind _ _).trans ?_)
  rw [Cursor.clear, (quotedRest_iff s.toList rest).2 fits]
  exact bind_of closes

theorem string_none (h : Next c (clear size offset rest))
    (bare : ∀ d, rest.head? = some d → d ≠ '"' ∧ d ≠ '\'') : string c = none := by
  refine (bind_of (begin_of h)).trans ?_
  cases rest with
  | nil => exact bind_none rfl
  | cons d rest =>
      have other := bare d rfl
      refine (bind_of (a := d) rfl).trans (bind_none (check_none ?_))
      simp [other.1, other.2]

end

/-! ## Names -/

def beginsPlain (c : Char) : Bool :=
  c.isAlpha || c == '_' || c == '$'

def isPlain (c : Char) : Bool :=
  beginsPlain c || c.isDigit

theorem beginsPlain_range {c : Char} (h : beginsPlain c = true) :
    65 ≤ c.toNat ∧ c.toNat ≤ 90 ∨ 97 ≤ c.toNat ∧ c.toNat ≤ 122 ∨ c.toNat = 95 ∨ c.toNat = 36 := by
  simp only [beginsPlain, Bool.or_eq_true, beq_iff_eq] at h
  rcases h with (letter | rfl) | rfl
  · rcases Bool.or_eq_true_iff.1 (letter : (c.isUpper || c.isLower) = true) with upper | lower
    · exact .inl (of_decide_eq_true upper)
    · have bounds := Bool.and_eq_true_iff.1 (lower : (decide (97 ≤ c.val) && decide (c.val ≤ 122)) = true)
      exact .inr (.inl ⟨of_decide_eq_true bounds.1, of_decide_eq_true bounds.2⟩)
  · decide
  · decide

theorem isPlain_range {c : Char} (h : isPlain c = true) :
    48 ≤ c.toNat ∧ c.toNat ≤ 57 ∨ 65 ≤ c.toNat ∧ c.toNat ≤ 90 ∨ 97 ≤ c.toNat ∧ c.toNat ≤ 122 ∨
      c.toNat = 95 ∨ c.toNat = 36 := by
  rcases Bool.or_eq_true_iff.1 h with first | digit
  · exact .inr (beginsPlain_range first)
  · exact .inl (Char.isDigit_iff_toNat.1 digit)

theorem isNamePart_of_isPlain {c : Char} (h : isPlain c = true) : isNamePart c = true := by
  have range := isPlain_range h
  have space : isSpace c = false := by
    simp only [isSpace, Bool.or_eq_false_iff, Bool.and_eq_false_iff, decide_eq_false_iff_not, beq_eq_false_iff_ne]
    omega
  have mark : marks.contains c = false := by
    refine Bool.eq_false_iff.2 fun listed => ?_
    have none : (marks.all fun d => !isPlain d) = true := rfl
    have other := List.all_eq_true.1 none c (List.contains_iff_mem.1 listed)
    rw [h] at other
    cases other
  simp only [isNamePart, space, mark, Bool.not_false, Bool.and_true, decide_eq_true_eq]
  omega

theorem nameOf_append {name : List Char} (plain : ∀ c ∈ name, isPlain c = true) (tail : List Char) :
    nameOf (name ++ ' ' :: tail) = name := by
  induction name with
  | nil => rfl
  | cons c name ih =>
      have own := plain c (.head _)
      have other : c ≠ '\\' := by
        rintro rfl
        cases own
      rw [List.cons_append, nameOf.eq_2 _ _ (fun _ same => absurd same other), if_pos (isNamePart_of_isPlain own),
        ih fun d member => plain d (.tail _ member)]

theorem not_isDigit_of_beginsPlain {c : Char} (h : beginsPlain c = true) : c.isDigit = false := by
  refine Bool.eq_false_iff.2 fun digit => ?_
  have range := beginsPlain_range h
  have bounds : 48 ≤ c.toNat ∧ c.toNat ≤ 57 := Char.isDigit_iff_toNat.1 digit
  omega

theorem plainName_chars {name : String} (plain : Options.isPlainName name = true) :
    (∀ c ∈ name.toList, isPlain c = true) ∧ ∃ c rest, name.toList = c :: rest ∧ c.isDigit = false := by
  unfold Options.isPlainName at plain
  split at plain
  · cases plain
  · rename_i c rest chars
    simp only [Bool.and_eq_true, List.all_eq_true] at plain
    refine ⟨fun d member => ?_, c, rest, chars, not_isDigit_of_beginsPlain plain.1⟩
    rw [chars] at member
    rcases List.mem_cons.1 member with rfl | later
    · exact Bool.or_eq_true_iff.2 (.inl plain.1)
    · exact plain.2 d later

section

variable {size offset : Nat} {tail : List Char} {c : Cursor} {name : String}

theorem quiet_name (plain : Options.isPlainName name = true) : quiet (name.toList ++ tail) = true := by
  obtain ⟨all, d, rest, chars, _⟩ := plainName_chars plain
  have own := isNamePart_of_isPlain (all d (by simp [chars]))
  have slash : d ≠ '/' := by
    rintro rfl
    cases all '/' (by simp [chars])
  simp only [isNamePart, Bool.and_eq_true] at own
  rw [chars]
  simp only [quiet, List.cons_append, List.head?_cons, Option.all_some, own.1.2, Bool.true_and]
  simpa using slash

theorem word_name (plain : Options.isPlainName name = true)
    (h : Next c (clear size offset (name.toList ++ ' ' :: tail))) :
    word c = some (name, clear size (offset + name.utf8ByteSize) (' ' :: tail)) := by
  obtain ⟨all, d, rest, chars, first⟩ := plainName_chars plain
  have whole := nameOf_append all tail
  refine word_of h ?_ whole
  rw [beginsName, whole, chars]
  simp [first]

theorem bare_name (plain : Options.isPlainName name = true) (d : Char)
    (h : (name.toList ++ tail).head? = some d) : d ≠ '"' ∧ d ≠ '\'' := by
  obtain ⟨all, e, rest, chars, _⟩ := plainName_chars plain
  rw [chars] at h
  cases h
  have own := all d (by simp [chars])
  constructor
  all_goals
    rintro rfl
    cases own

/-! ## The statement -/

theorem word_close (inside : offset < size) : word (clear size offset (' ' :: '\x7d' :: tail)) = none :=
  word_none (next_space rfl inside) rfl

def ownName (name : String) (offset : Nat) : Concrete :=
  .mk { kind := "identifier", start := offset, stop := offset + name.utf8ByteSize, field := some "name" } []

def importName (name : String) (offset : Nat) : Concrete :=
  .mk { kind := "import_specifier", start := offset, stop := offset + name.utf8ByteSize } [ownName name offset]

def importNames (name : String) (offset : Nat) : Concrete :=
  .mk { kind := "named_imports", start := offset, stop := offset + 4 + name.utf8ByteSize }
    [importName name (offset + 2)]

theorem specifier_of (plain : Options.isPlainName name = true)
    (h : Next c (clear size offset (name.toList ++ ' ' :: '\x7d' :: tail)))
    (inside : offset + name.utf8ByteSize < size) :
    specifier "import_specifier" c = some (importName name offset,
      clear size (offset + name.utf8ByteSize) (' ' :: '\x7d' :: tail)) := by
  have here : Next (clear size offset (name.toList ++ ' ' :: '\x7d' :: tail)) _ := next_here (quiet_name plain)
  have own := word_name plain here
  have close : word (clear size (offset + name.utf8ByteSize) (' ' :: '\x7d' :: tail)) = none := word_close inside
  have quote : string (clear size (offset + name.utf8ByteSize) (' ' :: '\x7d' :: tail)) = none :=
    string_none (next_space rfl inside) (by rintro d ⟨⟩; decide)
  refine (bind_of (begin_of h)).trans ?_
  refine (bind_of (maybe_none ?_)).trans ?_
  · -- A binding named like the word for types is no such word here, since no name follows.
    by_cases same : name = "type"
    · subst same
      refine (bind_of (keyword_of own)).trans ?_
      refine (bind_of (would_eq _ _)).trans ((bind_of (would_eq _ _)).trans ?_)
      refine check_none ?_
      rw [quote, bind_none close]
      rfl
    · exact bind_none (keyword_ne own same)
  · have named : exportedName (clear size offset (name.toList ++ ' ' :: '\x7d' :: tail)) = _ :=
      (orElse_none (string_none here (bare_name plain))).trans ((bind_of (begin_of here)).trans (bind_of own))
    refine (bind_of (a := _) named).trans ?_
    exact (bind_of (maybe_none (bind_none (keyword_none close)))).trans rfl

theorem specifier_none (inside : offset < size) :
    specifier "import_specifier" (clear size offset (' ' :: '\x7d' :: tail)) = none := by
  have h : Next (clear size offset (' ' :: '\x7d' :: tail)) _ := next_space rfl inside
  have here : Next (clear size (offset + 1) ('\x7d' :: tail)) _ := next_here rfl
  have none : word (clear size (offset + 1) ('\x7d' :: tail)) = none := word_none here rfl
  refine (bind_of (begin_of h)).trans ?_
  refine (bind_of (maybe_none (bind_none (keyword_none none)))).trans (bind_none ?_)
  exact (orElse_none (string_none here (by rintro d ⟨⟩; decide))).trans
    ((bind_of (begin_of here)).trans (bind_none none))

theorem specifiers_of (plain : Options.isPlainName name = true)
    (h : Next c (clear size offset ('\x7b' :: ' ' :: (name.toList ++ ' ' :: '\x7d' :: tail))))
    (inside : offset + 2 + name.utf8ByteSize < size) :
    specifiers "named_imports" "import_specifier" c =
      some (importNames name offset, clear size (offset + 4 + name.utf8ByteSize) tail) := by
  have opened : mark "\x7b" (clear size offset ('\x7b' :: ' ' :: (name.toList ++ ' ' :: '\x7d' :: tail))) = _ :=
    mark_of (next_here rfl) rfl
  have first : specifier "import_specifier" (clear size (offset + 1) (' ' :: (name.toList ++ ' ' :: '\x7d' :: tail))) =
      _ := specifier_of plain (next_space (quiet_name plain) (by omega)) inside
  have close : Next (clear size (offset + 2 + name.utf8ByteSize) (' ' :: '\x7d' :: tail)) _ := next_space rfl inside
  have closed : symbol "\x7d" (clear size (offset + 2 + name.utf8ByteSize) (' ' :: '\x7d' :: tail)) =
      some ((), clear size (offset + 4 + name.utf8ByteSize) tail) := by
    have place : offset + 2 + name.utf8ByteSize + 1 + "\x7d".utf8ByteSize = offset + 4 + name.utf8ByteSize := by
      have one : "\x7d".utf8ByteSize = 1 := rfl
      omega
    rw [← place]
    exact symbol_of close
  have comma : mark "," (clear size (offset + 2 + name.utf8ByteSize) (' ' :: '\x7d' :: tail)) = none := by
    have found : markOf ('\x7d' :: tail) = some "\x7d" := rfl
    exact mark_none close (by rw [found]; decide)
  have items : listUpTo "\x7d" (specifier "import_specifier")
      (clear size (offset + 1) (' ' :: (name.toList ++ ' ' :: '\x7d' :: tail))) =
      some ([importName name (offset + 2)], clear size (offset + 4 + name.utf8ByteSize) tail) := by
    refine (bind_of (many_cons ((bind_of first).trans ((bind_of (maybe_none comma)).trans
      ((bind_of (would_eq _ _)).trans (bind_of (check_of ?_))))) ?_ (many_none (bind_none ?_)))).trans ?_
    · rw [closed]
      rfl
    · simp only [Cursor.left, Cursor.clear]
      omega
    · exact specifier_none inside
    · exact bind_of closed
  exact (bind_of (begin_of h)).trans ((bind_of opened).trans (bind_of items))

def importClauseOf (name : String) (offset : Nat) : Concrete :=
  .mk { kind := "import_clause", start := offset, stop := offset + 4 + name.utf8ByteSize } [importNames name offset]

theorem importClause_of (plain : Options.isPlainName name = true)
    (h : Next c (clear size offset ('\x7b' :: ' ' :: (name.toList ++ ' ' :: '\x7d' :: tail))))
    (inside : offset + 2 + name.utf8ByteSize < size) :
    importClause c = some (importClauseOf name offset, clear size (offset + 4 + name.utf8ByteSize) tail) := by
  have here : Next (clear size offset ('\x7b' :: ' ' :: (name.toList ++ ' ' :: '\x7d' :: tail))) _ := next_here rfl
  have star : mark "*" (clear size offset ('\x7b' :: ' ' :: (name.toList ++ ' ' :: '\x7d' :: tail))) = none := by
    have found : markOf ('\x7b' :: ' ' :: (name.toList ++ ' ' :: '\x7d' :: tail)) = some "\x7b" := rfl
    exact mark_none here (by rw [found]; decide)
  have none : namespaceBinding "namespace_import"
      (clear size offset ('\x7b' :: ' ' :: (name.toList ++ ' ' :: '\x7d' :: tail))) = none :=
    (bind_of (begin_of here)).trans (bind_none star)
  have names := (orElse_none none).trans (specifiers_of plain here inside)
  refine (bind_of (begin_of h)).trans ?_
  exact (bind_of (a := _) (orElse_of ((bind_of names).trans rfl))).trans rfl

def importPath (path : String) (offset : Nat) : Concrete :=
  .mk { kind := "string", start := offset, stop := offset + path.utf8ByteSize + 2, field := some "source" } []

theorem fromModule_of {read : Reader} {path : String} (fits : quotable path.toList = true)
    (inside : offset + 6 < size) :
    fromModule read (clear size offset (" from \"".toList ++ (path.toList ++ '"' :: ';' :: tail))) =
      some ([importPath path (offset + 6)], clear size (offset + 6 + path.utf8ByteSize + 2) (';' :: tail)) := by
  have word : word (clear size offset (" from \"".toList ++ (path.toList ++ '"' :: ';' :: tail))) =
      some ("from", clear size (offset + 5) (' ' :: '"' :: (path.toList ++ '"' :: ';' :: tail))) :=
    word_of (w := "from") (next_space rfl (by omega)) rfl rfl
  have literal : string (clear size (offset + 5) (' ' :: '"' :: (path.toList ++ '"' :: ';' :: tail))) = _ :=
    string_of (next_space rfl (by omega)) fits
  have bare : importAttributes read (clear size (offset + 6 + path.utf8ByteSize + 2) (';' :: tail)) = none := by
    have here : Next (clear size (offset + 6 + path.utf8ByteSize + 2) (';' :: tail)) _ := next_here rfl
    have none := word_none here rfl
    exact (bind_of (begin_of here)).trans (bind_none ((orElse_none (keyword_none none)).trans (keyword_none none)))
  refine (bind_of (keyword_of word)).trans ?_
  refine (bind_of literal).trans ?_
  exact (bind_of (maybe_none bare)).trans rfl

def importTree (name path : String) (offset : Nat) : Concrete :=
  .mk { kind := "import_statement", start := offset, stop := offset + name.utf8ByteSize + path.utf8ByteSize + 20 }
    [importClauseOf name (offset + 7), importPath path (offset + name.utf8ByteSize + 17)]

def importChars (name path : String) (tail : List Char) : List Char :=
  "import \x7b ".toList ++ (name.toList ++ (" \x7d from \"".toList ++ (path.toList ++ '"' :: ';' :: tail)))

section

variable {read : Reader} {path : String} (plain : Options.isPlainName name = true)
  (fits : quotable path.toList = true) (whole : offset + name.utf8ByteSize + path.utf8ByteSize + 20 ≤ size)

include plain fits whole

theorem importStatement_of :
    importStatement read (clear size offset (importChars name path tail)) = some (importTree name path offset,
      clear size (offset + name.utf8ByteSize + path.utf8ByteSize + 20) tail) := by
  have here : Next (clear size offset (importChars name path tail)) _ := next_here rfl
  have first := keyword_of (word_of (w := "import") here rfl rfl)
  have brace : Next (clear size (offset + 6) (' ' :: '\x7b' :: ' ' :: (name.toList ++
      (" \x7d from \"".toList ++ (path.toList ++ '"' :: ';' :: tail))))) _ := next_space rfl (by omega)
  have bare := string_none brace (by rintro d ⟨⟩; decide)
  have type := word_none brace rfl
  have clause : importClause (clear size (offset + 6) (' ' :: '\x7b' :: ' ' :: (name.toList ++
      ' ' :: '\x7d' :: (" from \"".toList ++ (path.toList ++ '"' :: ';' :: tail))))) = _ :=
    importClause_of plain brace (by omega)
  have source : fromModule read (clear size (offset + 7 + 4 + name.utf8ByteSize)
      (" from \"".toList ++ (path.toList ++ '"' :: ';' :: tail))) = _ := fromModule_of fits (by omega)
  have start : offset + 7 + 4 + name.utf8ByteSize + 6 = offset + name.utf8ByteSize + 17 := by omega
  rw [start] at source
  have parts : importStatement.clause read (clear size (offset + 6) (' ' :: '\x7b' :: ' ' :: (name.toList ++
      (" \x7d from \"".toList ++ (path.toList ++ '"' :: ';' :: tail))))) = some
      ([importClauseOf name (offset + 7), importPath path (offset + name.utf8ByteSize + 17)],
        clear size (offset + name.utf8ByteSize + 17 + path.utf8ByteSize + 2) (';' :: tail)) :=
    (bind_of clause).trans (bind_of source)
  have none : importStatement.typeClause read (clear size (offset + 6) (' ' :: '\x7b' :: ' ' :: (name.toList ++
      (" \x7d from \"".toList ++ (path.toList ++ '"' :: ';' :: tail))))) = none :=
    bind_none ((orElse_none (keyword_none type)).trans (keyword_none type))
  have ends : semicolon (clear size (offset + name.utf8ByteSize + 17 + path.utf8ByteSize + 2) (';' :: tail)) =
      some ((), clear size (offset + name.utf8ByteSize + 17 + path.utf8ByteSize + 2 + 1) tail) :=
    orElse_of (mark_of (next_here rfl : Next _ (clear _ _ (";".toList ++ tail))) rfl)
  have stop : offset + name.utf8ByteSize + 17 + path.utf8ByteSize + 2 + 1 =
      offset + name.utf8ByteSize + path.utf8ByteSize + 20 := by omega
  rw [stop] at ends
  refine (bind_of (begin_of here)).trans ?_
  refine (bind_of first).trans ?_
  -- Neither a path alone nor a clause of types stands here.
  refine (bind_of (orElse_of (map_of ((orElse_none (bind_none bare)).trans
    ((orElse_none none).trans (orElse_of parts)))))).trans ?_
  exact (bind_of ends).trans rfl

theorem statement_of :
    statement read (clear size offset (importChars name path tail)) = some (importTree name path offset,
      clear size (offset + name.utf8ByteSize + path.utf8ByteSize + 20) tail) := by
  have here : Next (clear size offset (importChars name path tail)) _ := next_here rfl
  have first := word_of (w := "import") here rfl rfl
  have looked : maybe (ahead word) (clear size offset (importChars name path tail)) =
      some (some "import", clear size offset (importChars name path tail)) := by
    refine maybe_of ?_
    rw [ahead, first]
    rfl
  refine (bind_of (begin_of here)).trans ?_
  refine (bind_of (a := some 'i') rfl).trans ?_
  refine (bind_of looked).trans ?_
  exact orElse_of (importStatement_of plain fits whole)

end

theorem hashBang_none (name path : String) : hashBang (clear size 0 (importChars name path tail)) = none :=
  (bind_of (begin_of (next_here rfl))).trans (bind_none (exactly_none rfl))

theorem statement_end (read : Reader) : statement read (clear size size []) = none :=
  (bind_of (begin_of (next_here rfl))).trans ((bind_of (a := none) rfl).trans rfl)

def importModule (name path : String) : Concrete :=
  .mk { kind := "program", start := 0, stop := name.utf8ByteSize + path.utf8ByteSize + 20 } [importTree name path 0]

theorem module_of {read below : Reader} {path : String} (reads : read .statement = statement below)
    (plain : Options.isPlainName name = true) (fits : quotable path.toList = true)
    (whole : name.utf8ByteSize + path.utf8ByteSize + 20 = size) :
    module read (clear size 0 (importChars name path [])) = some (importModule name path, clear size size []) := by
  have statements : many (read .statement) (clear size 0 (importChars name path [])) =
      some ([importTree name path 0], clear size size []) := by
    have first : statement below (clear size 0 (importChars name path [])) = _ :=
      statement_of plain fits (by omega)
    rw [Nat.zero_add, whole] at first
    rw [reads]
    refine many_cons first ?_ (many_none (statement_end below))
    simp only [Cursor.left, Cursor.clear]
    omega
  refine (bind_of (maybe_none (hashBang_none name path))).trans ?_
  refine (bind_of statements).trans ?_
  refine (next_here rfl).bind.trans ?_
  refine (bind_of (a := none) rfl).trans ((bind_of (check_of rfl)).trans ?_)
  rw [importModule, whole]
  rfl

end

end Parser

theorem toList_statement_append (name path : String) (tail : List Char) :
    (Import.statement name path).toList ++ tail = Parser.importChars name path tail := by
  have last : "\";".toList = ['"', ';'] := rfl
  unfold Import.statement Parser.importChars
  simp only [String.toList_append, List.append_assoc, last, List.cons_append, List.nil_append]

theorem toList_statement (name path : String) :
    (Import.statement name path).toList = Parser.importChars name path [] := by
  rw [← toList_statement_append, List.append_nil]

theorem utf8ByteSize_statement (name path : String) :
    (Import.statement name path).utf8ByteSize = name.utf8ByteSize + path.utf8ByteSize + 20 := by
  have first : "import \x7b ".utf8ByteSize = 9 := rfl
  have second : " \x7d from \"".utf8ByteSize = 9 := rfl
  have third : "\";".utf8ByteSize = 2 := rfl
  simp only [Import.statement, String.utf8ByteSize_append, first, second, third]
  omega

theorem parse?_statement {name path : String} (plain : Options.isPlainName name = true)
    (fits : quotable path.toList = true) :
    parse? (Import.statement name path) = some (Parser.importModule name path) := by
  obtain ⟨bound, positive⟩ : ∃ bound, 32 * ((Import.statement name path).length + 1) = bound + 1 :=
    Nat.exists_eq_succ_of_ne_zero (by omega)
  have start : Cursor.ofString (Import.statement name path) =
      .clear (Import.statement name path).utf8ByteSize 0 (Parser.importChars name path []) := by
    rw [Cursor.ofString, toList_statement]
    rfl
  have read := Parser.module_of (by rfl : reader (bound + 1) .statement = Parser.statement (reader bound)) plain fits
    (utf8ByteSize_statement name path).symm
  rw [parse?, positive, start, read]
  rfl

end JsxBoundary.Tsx
