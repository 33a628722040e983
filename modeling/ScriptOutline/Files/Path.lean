/-
Paths as text.  Segments are divided by slashes.
-/

namespace ScriptOutline
namespace Path

/-- The segments of a path; a path without slashes has one. -/
def split : List Char → List (List Char)
  | [] => [[]]
  | c :: cs =>
    if c == '/' then [] :: split cs
    else
      match split cs with
      | [] => [[c]]
      | s :: ss => (c :: s) :: ss

def join : List (List Char) → List Char
  | [] => []
  | [s] => s
  | s :: t :: ss => s ++ '/' :: join (t :: ss)

theorem split_ne_nil (cs : List Char) : split cs ≠ [] := by
  cases cs with
  | nil => simp [split]
  | cons c cs =>
    unfold split
    split
    · simp
    · split <;> simp

theorem join_split (cs : List Char) : join (split cs) = cs := by
  induction cs with
  | nil => rfl
  | cons c cs ih =>
    unfold split
    split
    · next hc =>
      have hc : c = '/' := by simpa using hc
      cases h : split cs with
      | nil => exact absurd h (split_ne_nil cs)
      | cons s ss =>
        rw [h] at ih
        simp [join, ih, hc]
    · split
      · next h => exact absurd h (split_ne_nil cs)
      · next s ss h =>
        rw [h] at ih
        cases ss with
        | nil =>
          simp only [join] at ih ⊢
          simp [ih]
        | cons t ss =>
          simp only [join] at ih ⊢
          simp [← ih]

def segments (path : String) : List String := (split path.toList).map String.ofList

def here : List Char := ['.']

def up : List Char := ['.', '.']

/-! ## Canonical form -/

/-- Slashes for backslashes and one for several; `slashed` says whether a
slash stands before. -/
def tidy (slashed : Bool) : List Char → List Char
  | [] => []
  | c :: cs =>
    let c' := if c == '\\' then '/' else c
    if c' == '/' && slashed then tidy true cs else c' :: tidy (c' == '/') cs

def normalizeSlashes (path : String) : String := String.ofList (tidy false path.toList)

def asDirectory (path : String) : String :=
  if path.toList.getLast? == some '/' then path else path ++ "/"

/-- Segments kept so far, and the one that was kept last, which may have been
removed again since. -/
structure Kept where
  segments : List (List Char) := []
  last : Option (List Char) := none
deriving DecidableEq, Repr

namespace Kept

/-- A segment `.` is dropped.  A segment `..` removes the last segment, but is
kept itself where there is none or where `..` was kept last. -/
def add (k : Kept) (segment : List Char) : Kept :=
  if segment == up && !k.segments.isEmpty && k.last != some up then
    { k with segments := k.segments.dropLast }
  else if segment == here then k
  else { segments := k.segments ++ [segment], last := some segment }

end Kept

/-- A path without the segments `.` and `..` as far as possible. -/
def resolve (path : String) : String :=
  String.ofList (join ((split path.toList).foldl Kept.add {}).segments)

def canonical (path : String) : String := resolve (normalizeSlashes path)

/-- The names on the way, without segments that stay or go up. -/
def names (path : String) : List String :=
  (segments path).filter fun s => s != "" && s != "." && s != ".."

/-- The last name, unless the path ends by going up. -/
def fileName? (path : String) : Option String :=
  match ((segments path).filter fun s => s != "" && s != ".").getLast? with
  | some s => if s == ".." then none else some s
  | none => none

/-- What follows the last point of a name.  A point in front of the whole name
does not count. -/
def extension? (name : List Char) : Option (List Char) :=
  let after := (name.reverse.takeWhile (· != '.')).reverse
  if after.length + 1 < name.length then some after else none

def isScript (path : String) : Bool :=
  ((fileName? path).bind fun name => extension? name.toList) == some ['j', 's']

def child (directory name : String) : String := asDirectory directory ++ name

/-- A path seen from a directory; the empty path is the directory at hand. -/
def within (directory name : String) : String :=
  if directory.isEmpty then name else child directory name

def afterHead? : (head cs : List Char) → Option (List Char)
  | [], cs => some cs
  | _ :: _, [] => none
  | h :: hs, c :: cs => if h == c then afterHead? hs cs else none

def beforeEnding? (ending cs : List Char) : Option (List Char) :=
  (afterHead? ending.reverse cs.reverse).map List.reverse

end Path
end ScriptOutline
