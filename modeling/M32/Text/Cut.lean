/-
  Cutting a text at a character.

  `cutFirst?` and `cutLast?` cut once, at the first or last occurrence, which belongs to neither side;
  `fieldsAt` cuts at every occurrence, so there is always one field.  `dropPrefix?` and `dropEnd?` take a
  known start or end away.
-/
namespace M32.Text

/-- What stands before and after the first `sep`. -/
def cutFirst? (sep : Char) : List Char → Option (List Char × List Char)
  | [] => none
  | c :: cs => if c = sep then some ([], cs) else (cutFirst? sep cs).map fun (a, b) => (c :: a, b)

/-- What stands before and after the last `sep`. -/
def cutLast? (sep : Char) (cs : List Char) : Option (List Char × List Char) :=
  (cutFirst? sep cs.reverse).map fun (b, a) => (a.reverse, b.reverse)

/-- The fields between the occurrences of `sep`. -/
def fieldsAt (sep : Char) : List Char → List (List Char)
  | [] => [[]]
  | c :: cs => if c = sep then [] :: fieldsAt sep cs else (c :: (fieldsAt sep cs).headD []) :: (fieldsAt sep cs).tail

/-- The rest of a text after a known start. -/
def dropPrefix? (start cs : List Char) : Option (List Char) :=
  if start.isPrefixOf cs then some (cs.drop start.length) else none

/-- A text without its last character, if that is `c`. -/
def dropEnd? (c : Char) (cs : List Char) : Option (List Char) :=
  if cs.getLast? = some c then some cs.dropLast else none

example : cutFirst? '=' "a=b=c".toList = some (['a'], "b=c".toList) ∧
    cutLast? ',' "a,b,c".toList = some ("a,b".toList, ['c']) ∧ fieldsAt ',' "a,,".toList = [['a'], [], []] := by decide

end M32.Text
