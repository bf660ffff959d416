/-!
# Similar words

The Jaro similarity of two words. Characters match if they are alike and less than half the longer
word apart, each at most once. The measure is the mean of three shares: the matched part of either
word, and the part of the matches that come in the same order in both. It is a double, so a pair
that is just 7/10 similar can come out above that.
-/

namespace ScriptFront.Command

/-- The characters of a word that match a place of `other`, with that place. The first `i`
characters are behind us and took the places `taken`. -/
def matchPlaces (reach : Nat) (other : List Char) (i : Nat) (taken : List Nat) :
    List Char → List (Char × Nat)
  | [] => []
  | c :: cs =>
    let isFree (j : Nat) : Bool :=
      i ≤ j + reach && j ≤ i + reach && other[j]? = some c && !taken.contains j
    match (List.range other.length).find? isFree with
    | some j => (c, j) :: matchPlaces reach other (i + 1) (j :: taken) cs
    | none => matchPlaces reach other (i + 1) taken cs

/-- The similarity of two words, from 0 to 1. -/
def similarity (a b : List Char) : Float :=
  let found := matchPlaces (max a.length b.length / 2 - 1) b 0 [] a
  let inOrder := (List.range b.length).filter fun j => found.any (·.2 = j)
  let swapped := ((found.map (·.1)).zip inOrder).filter fun (c, j) => b[j]? ≠ some c
  let matched := found.length.toFloat
  let kept := (found.length - swapped.length / 2).toFloat
  if found.isEmpty then 0
  else (matched / a.length.toFloat + matched / b.length.toFloat + kept / matched) / 3

/-- The word most similar to `word`, the last one of several, if it is more than 0.7 similar. -/
def closest? (word : String) (choices : List String) : Option String :=
  let better (best : Float × Option String) (choice : String) :=
    let measure := similarity word.toList choice.toList
    if best.1 ≤ measure && 0.7 < measure then (measure, some choice) else best
  (choices.foldl better (0, none)).2

end ScriptFront.Command
