/-
  Scalars in quotes.

  Between single quotes, a quote is written twice and all else stands for itself.  Between double quotes, a backslash
  starts an escape: a letter, a number of two, four or eight hexadecimal digits, or the end of a line, which it joins to
  the next.  Gaps between words are worth what they are worth in plain scalars.  The mark of a document is refused.
-/
import M32.Yaml.Scalar
import M32.Yaml.Scalar.Gap

namespace M32.Yaml

/-- The character that a letter after a backslash means. -/
def escaped? : Char → Option Char
  | '0' => some '\x00'
  | 'a' => some '\x07'
  | 'b' => some '\x08'
  | 't' => some '\t'
  | '\t' => some '\t'
  | 'n' => some '\n'
  | 'v' => some '\x0B'
  | 'f' => some '\x0C'
  | 'r' => some '\r'
  | 'e' => some '\x1B'
  | ' ' => some ' '
  | '"' => some '"'
  | '/' => some '/'
  | '\\' => some '\\'
  | 'N' => some '\u0085'
  | '_' => some '\u00A0'
  | 'L' => some '\u2028'
  | 'P' => some '\u2029'
  | _ => none

/-- How many hexadecimal digits follow a letter after a backslash. -/
def escapeLength? : Char → Option Nat
  | 'x' => some 2
  | 'u' => some 4
  | 'U' => some 8
  | _ => none

/-- The character of a number. -/
def charOfNumber? (n : Nat) : Option Char := if n.isValidChar then some (Char.ofNat n) else none

/-- The character of an escape after its backslash, and the number of characters that write it. -/
def escape? : List Char → Option (Char × Nat)
  | [] => none
  | c :: cs => match escapeLength? c with
    | none => (escaped? c).map fun e => (e, 1)
    | some n =>
      if cs.length < n then none
      else ((digitsValue? 16 (cs.take n)).bind charOfNumber?).map fun e => (e, n + 1)

/-- A scalar in quotes, after the first of them, and what follows the last. -/
def quotedRest? (quote : Char) : (fuel : Nat) → Cursor → Option (List Char × Cursor)
  | 0, _ => none
  | fuel + 1, c =>
    if c.isAtDocument then none
    else match c.rest with
      | [] => none
      | ch :: cs =>
        let goOn (taken : List Char) (c : Cursor) : Option (List Char × Cursor) :=
          (quotedRest? quote fuel c).map fun (text, c) => (taken ++ text, c)
        if ch = quote then
          if quote = '\'' && cs.head? = some quote then goOn [quote] (c.skip 2) else some ([], c.skip 1)
        else if ch = '\\' && quote = '"' then
          if cs.head?.any isBreak then do
            let next := (c.skip 1).breakLine
            let (gap, c) ← Gap.joined.extend? 0 next.pos next.rest
            goOn gap.text c
          else do
            let (e, n) ← escape? cs
            goOn [e] (c.skip (n + 1))
        else if isSpace ch || isBreak ch then do
          let (gap, c) ← Gap.extend? 0 {} c.pos c.rest
          goOn gap.text c
        else goOn [ch] (c.skip 1)

/-- The scalar in quotes that starts at a place. -/
def quoted? (quote : Char) (c : Cursor) : Option (List Char × Cursor) :=
  quotedRest? quote (c.rest.length + 1) (c.skip 1)

end M32.Yaml
