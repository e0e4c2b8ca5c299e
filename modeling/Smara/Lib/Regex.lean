import Mathlib.Data.List.Basic

/-! # Regular expressions, as Python's `re` matches them

A pattern is tried by backtracking: the ways to match it at a place stand in the order in which they are tried, and
the first one is the match. The functions of `re` scan a text from the left with this.

* `Pattern.ends`: the ways to match a pattern at a place.
* `search`, `fullmatch`, `finditer`, `split`, `sub`: the functions of `re`. -/

namespace Smara.Lib.Regex

/-- A regular expression. `look` asserts something of the characters before and behind the place; `repeated` takes as
many as it can. -/
inductive Pattern
  | empty
  | char (p : Char → Bool)
  | look (p : Option Char → Option Char → Bool)
  | seq (r s : Pattern)
  | alt (r s : Pattern)
  | repeated (r : Pattern) (least : ℕ) (most : Option ℕ)
  | group (n : ℕ) (r : Pattern)

namespace Pattern

/-- `r+` -/
def plus (r : Pattern) : Pattern := .repeated r 1 none

/-- `r*` -/
def star (r : Pattern) : Pattern := .repeated r 0 none

/-- `r?` -/
def opt (r : Pattern) : Pattern := .repeated r 0 (some 1)

def lit (c : Char) : Pattern := .char (· == c)

def oneOf (cs : String) : Pattern := .char fun c => cs.toList.contains c

def word (s : String) : Pattern := s.toList.foldr (fun c r => .seq (lit c) r) .empty

def all (rs : List Pattern) : Pattern := rs.foldr .seq .empty

/-- One of these, in their order -/
def any : List Pattern → Pattern
  | [] => .char fun _ => false
  | [r] => r
  | r :: rs => .alt r (any rs)

end Pattern

/-- A place in the text, with the groups that have been matched, the latest first. -/
structure Place where
  position : ℕ
  groups : List (ℕ × List Char)

/-- The iterations of `repeated`, with as many before; an iteration that takes nothing is not tried again. -/
def iterate (f : Place → List Place) (least : ℕ) (most : Option ℕ) : ℕ → ℕ → Place → List Place
  | 0, count, place => if least ≤ count then [place] else []
  | fuel + 1, count, place =>
    (if most.any (· ≤ count) then []
      else ((f place).filter fun next => next.position ≠ place.position ∨ count < least).flatMap
        (iterate f least most fuel (count + 1))) ++
    if least ≤ count then [place] else []

/-- The ways to match the pattern at a place, in the order in which they are tried -/
def Pattern.ends (text : List Char) : Pattern → Place → List Place
  | .empty, place => [place]
  | .char p, place => if text[place.position]?.any p then [{ place with position := place.position + 1 }] else []
  | .look p, place =>
    let before := if place.position = 0 then none else text[place.position - 1]?
    if p before text[place.position]? then [place] else []
  | .seq r s, place => (r.ends text place).flatMap (s.ends text)
  | .alt r s, place => r.ends text place ++ s.ends text place
  | .repeated r least most, place => iterate (r.ends text) least most (text.length + least) 0 place
  | .group n r, place =>
    (r.ends text place).map fun last =>
      { last with groups := (n, (text.take last.position).drop place.position) :: last.groups }

structure Match where
  start : ℕ
  stop : ℕ
  text : List Char
  groups : List (ℕ × List Char)
  deriving DecidableEq

/-- `match.group(n)`, if the group has taken part -/
def Match.group (m : Match) (n : ℕ) : Option (List Char) := (m.groups.find? (·.1 = n)).map Prod.snd

/-- The match that begins here, and not with nothing after nothing -/
def matchAt (text : List Char) (r : Pattern) (after : Option ℕ) (start : ℕ) : Option Match :=
  ((r.ends text ⟨start, []⟩).find? fun place => after ≠ some start ∨ place.position ≠ start).map fun place =>
    ⟨start, place.position, (text.take place.position).drop start, place.groups⟩

def searchFrom (text : List Char) (r : Pattern) (after : Option ℕ) (start : ℕ) : Option Match :=
  (List.range' start (text.length + 1 - start)).findSome? (matchAt text r after)

def search (r : Pattern) (text : List Char) : Option Match := searchFrom text r none 0

/-- `re.fullmatch`, as a truth value -/
def fullmatch (r : Pattern) (text : List Char) : Bool :=
  (r.ends text ⟨0, []⟩).any fun place => place.position = text.length

/-- The matches from a place on; there are at most two for each character, and the one at the end. -/
def finditerFrom (text : List Char) (r : Pattern) : ℕ → Option ℕ → ℕ → List Match
  | 0, _, _ => []
  | fuel + 1, after, start =>
    match searchFrom text r after start with
    | none => []
    | some m => m :: finditerFrom text r fuel (if m.stop = m.start then some m.stop else none) m.stop

def finditer (r : Pattern) (text : List Char) : List Match := finditerFrom text r (2 * text.length + 2) none 0

/-- `re.findall`, of a pattern without groups -/
def findall (r : Pattern) (text : List Char) : List (List Char) := (finditer r text).map Match.text

def between (text : List Char) (start : ℕ) : List Match → List (List Char)
  | [] => [text.drop start]
  | m :: ms => (text.take m.start).drop start :: between text m.stop ms

/-- `re.split`, at a pattern without groups -/
def split (r : Pattern) (text : List Char) : List (List Char) := between text 0 (finditer r text)

/-- `re.sub`, with a fixed text -/
def sub (r : Pattern) (replacement text : List Char) : List Char := replacement.intercalate (split r text)

end Smara.Lib.Regex
