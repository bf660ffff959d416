import ScriptFront.Tree.Render

/-!
# Entries of a hash

Two keys are the same if they render alike. A hash has one entry for each of its keys, in the order
in which the keys first came; `insert` gives a key that is there a new value and leaves it in place.
-/

namespace ScriptFront

abbrev Entries := List (Expr × Expr)

namespace Entries

def insert (entries : Entries) (key value : Expr) : Entries :=
  match entries with
  | [] => [(key, value)]
  | (k, v) :: rest =>
    if k.render = key.render then (k, value) :: rest else (k, v) :: insert rest key value

def find? : Entries → String → Option Expr
  | [], _ => none
  | (k, v) :: rest, key => if k.render = key then some v else find? rest key

/-- The entries of a hash written as these pairs. -/
def ofPairs (pairs : List (Expr × Expr)) : Entries :=
  pairs.foldl (fun entries (key, value) => entries.insert key value) []

@[simp] theorem ofPairs_nil : ofPairs [] = [] := rfl

@[simp] theorem ofPairs_concat (pairs : List (Expr × Expr)) (pair : Expr × Expr) :
    ofPairs (pairs ++ [pair]) = (ofPairs pairs).insert pair.1 pair.2 := by
  simp [ofPairs]

@[simp] theorem find?_nil (key : String) : find? [] key = none := rfl

theorem find?_insert (entries : Entries) (key value : Expr) (k : String) :
    (entries.insert key value).find? k = if key.render = k then some value else entries.find? k := by
  induction entries with
  | nil => rfl
  | cons entry rest ih =>
    obtain ⟨k', v'⟩ := entry
    simp only [insert]
    by_cases h : k'.render = key.render
    · by_cases hk : key.render = k <;> simp [find?, h, hk]
    · simp only [if_neg h, find?, ih]
      by_cases hk : k'.render = k
      · have : key.render ≠ k := fun e => h (hk.trans e.symm)
        simp [hk, this]
      · simp [hk]

/-- The rendered keys after an insertion: a new one goes last, an old one stays. -/
theorem keys_insert (entries : Entries) (key value : Expr) :
    (entries.insert key value).map (·.1.render) =
      if key.render ∈ entries.map (·.1.render) then entries.map (·.1.render)
      else entries.map (·.1.render) ++ [key.render] := by
  induction entries with
  | nil => rfl
  | cons entry rest ih =>
    obtain ⟨k, v⟩ := entry
    by_cases h : k.render = key.render
    · simp [insert, h]
    · have h' : key.render ≠ k.render := Ne.symm h
      simp only [insert, if_neg h, List.map_cons, ih, List.mem_cons, h', false_or]
      split <;> simp

end Entries

end ScriptFront
