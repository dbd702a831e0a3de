namespace JsxBoundary

inductive Datum where
  | null
  | boolean (value : Bool)
  | integer (value : Int)
  | float (value : Float)
  | string (value : String)
  | moment (value : String)
  | list (items : List Datum)
  | table (entries : List (String × Datum))
  deriving Inhabited

/-- Entries in order, with at most one for a key where the type's operations made them. -/
abbrev Table := List (String × Datum)

namespace Table

def get? (t : Table) (key : String) : Option Datum :=
  t.lookup key

/-- The table with the value under the key; a key that is there already keeps its place. -/
def insert : Table → String → Datum → Table
  | [], key, value => [(key, value)]
  | (k, v) :: rest, key, value =>
    if k == key then (k, value) :: rest else (k, v) :: insert rest key value

theorem get?_insert (t : Table) (key key' : String) (value : Datum) :
    (t.insert key value).get? key' = if key' = key then some value else t.get? key' := by
  induction t with
  | nil => simp only [insert, get?, List.lookup_cons, List.lookup_nil]; grind
  | cons e rest ih =>
    simp only [get?] at ih
    unfold insert
    split <;> by_cases h' : key' = e.1 <;> simp_all [get?, List.lookup_cons] <;> grind

end Table

end JsxBoundary
