/-! # The closest name

How alike two names are: the longest run of characters that they share is found, then the parts
before it and the parts after it are compared in the same way; the more characters lie in shared
runs, the more alike the names. A suggestion for a misspelt name is the most similar of the known
ones, if it is similar enough.

In a long name, characters that occur very often do not start a shared run; they only lengthen
one. -/

namespace AluVM.Text.Closest

/-- A run of `size` characters that starts at `left` in one name and at `right` in the other. -/
structure Run where
  left : Nat
  right : Nat
  size : Nat
  deriving DecidableEq, Repr

/-- The lengths of the shared runs that end at each place of the right name, where `c` is the
character of the left name and `previous` holds the lengths for the character before it. -/
def row (starts : Char → Bool) (right : List Char) (c : Char) (previous : List Nat) : List Nat :=
  (right.zip (0 :: previous)).map fun (d, n) => if d = c && starts d then n + 1 else 0

/-- The longer of a run and those that end at place `i` of the left name; of equally long ones
the earlier. -/
def better (i : Nat) (best : Run) (j : Nat) : List Nat → Run
  | [] => best
  | n :: ns =>
    better i (if best.size < n then ⟨i + 1 - n, j + 1 - n, n⟩ else best) (j + 1) ns

/-- The longest shared run, over the places of the left name from `i` on. -/
def longestFrom (starts : Char → Bool) (right : List Char) (i : Nat) (best : Run)
    (previous : List Nat) : List Char → Run
  | [] => best
  | c :: cs =>
    let next := row starts right c previous
    longestFrom starts right (i + 1) (better i best 0 next) next cs

/-- The number of characters that two texts share from their start on. -/
def sharedStart : List Char → List Char → Nat
  | c :: cs, d :: ds => if c = d then sharedStart cs ds + 1 else 0
  | _, _ => 0

/-- A run with the equal characters around it. -/
def widen (left right : List Char) (r : Run) : Run :=
  let before := sharedStart (left.take r.left).reverse (right.take r.right).reverse
  let after := sharedStart (left.drop (r.left + r.size)) (right.drop (r.right + r.size))
  ⟨r.left - before, r.right - before, before + r.size + after⟩

/-- The longest run that two texts share. -/
def longest (starts : Char → Bool) (left right : List Char) : Run :=
  widen left right (longestFrom starts right 0 ⟨0, 0, 0⟩ (right.map fun _ => 0) left)

/-- The number of characters in shared runs. Every run takes at least one character of the left
text, so `fuel` never runs out if it is the length of that text. -/
def shared (starts : Char → Bool) : (fuel : Nat) → List Char → List Char → Nat
  | 0, _, _ => 0
  | fuel + 1, left, right =>
    let r := longest starts left right
    if r.size = 0 then 0
    else
      shared starts fuel (left.take r.left) (right.take r.right) + r.size +
        shared starts fuel (left.drop (r.left + r.size)) (right.drop (r.right + r.size))

/-- The characters of a name that start shared runs: in a name of 200 characters or more, only
those that make up no more than about a hundredth of it. -/
def starters (name : List Char) : List Char :=
  if name.length < 200 then name.eraseDups
  else name.eraseDups.filter fun c => name.count c ≤ name.length / 100 + 1

/-- A similarity between zero and one, as a fraction. -/
structure Score where
  numerator : Nat
  denominator : Nat
  deriving DecidableEq, Repr

/-- How alike a candidate and a name are: the share of their characters that lies in shared runs. -/
def score (name candidate : List Char) : Score :=
  let total := candidate.length + name.length
  let first := starters name
  if total = 0 then ⟨1, 1⟩ else ⟨2 * shared first.contains candidate.length candidate name, total⟩

/-- The order of similarity. -/
def Score.le (s t : Score) : Bool := s.numerator * t.denominator ≤ t.numerator * s.denominator

/-- The least similarity of a suggestion, three fifths. -/
def cutoff : Score := ⟨3, 5⟩

/-- The better of two scored candidates; of equally similar ones the later in the order of texts. -/
def pick (best : Option (Score × String)) (s : Score) (candidate : String) :
    Option (Score × String) :=
  match best with
  | none => some (s, candidate)
  | some (t, other) =>
    if !s.le t || (t.le s && other < candidate) then some (s, candidate) else best

/-- The most similar name of a pool, if it is similar enough. -/
def closest? (name : String) (pool : List String) : Option String :=
  (pool.foldl
    (fun best candidate =>
      let s := score name.toList candidate.toList
      if cutoff.le s then pick best s candidate else best)
    none).map (·.2)

end AluVM.Text.Closest
