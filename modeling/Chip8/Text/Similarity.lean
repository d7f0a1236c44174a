/-! # Similarity of words

The Jaro similarity of two words: characters match if they are equal and not too far from each
other, each at most once, and the similarity is the mean of three ratios: that of the matches to
either length, and that of the matches in the same order to all matches.

The numbers are kept whole: `Similarity.exceeds` compares with a bound given as a fraction. -/

namespace Chip8.Similarity

/-- The position of the first character of `cs` equal to `c` that lies from `low` up to below `high`
and is not taken yet; `at` is the position of the head of `cs`. -/
def findFree (c : Char) (low high : Nat) (taken : List Nat) : Nat → List Char → Option Nat
  | _, [] => none
  | i, d :: cs =>
      if low ≤ i ∧ i < high ∧ d = c ∧ i ∉ taken then some i
      else findFree c low high taken (i + 1) cs

/-- For each character of the first word in order, the character and the position that it is matched
with in the second word, if there is one. -/
def pairs (range : Nat) (b : List Char) (taken : List Nat) : Nat → List Char → List (Char × Nat)
  | _, [] => []
  | i, c :: cs =>
      match findFree c (i - range) (i + range + 1) taken 0 b with
      | some j => (c, j) :: pairs range b (j :: taken) (i + 1) cs
      | none => pairs range b taken (i + 1) cs

/-- The matched characters of the second word in its order. -/
def matchedIn (b : List Char) (positions : List Nat) : List Char :=
  (b.zipIdx.filter fun (_, j) => positions.contains j).map Prod.fst

/-- Whether the similarity of two words is greater than `num / den`. -/
def exceeds (num den : Nat) (a b : List Char) : Bool :=
  let range := max a.length b.length / 2 - 1
  let found := pairs range b [] 0 a
  let matched := found.length
  let other := matchedIn b (found.map Prod.snd)
  let swapped := ((found.map Prod.fst).zip other).countP fun (c, d) => c ≠ d
  let ordered := matched - swapped / 2
  if a.isEmpty ∧ b.isEmpty then num < den
  else if matched = 0 then false
  else
    3 * num * (a.length * b.length * matched) <
      den * (matched * matched * b.length + matched * matched * a.length +
        ordered * a.length * b.length)

end Chip8.Similarity
