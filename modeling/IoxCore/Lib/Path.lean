import Mathlib

/-!
# Lexical POSIX paths

Paths as the Rust standard library treats them on Unix, and their lexical
resolution.

* `join` is `PathBuf::push` (through `Path::join`): an absolute path replaces
  the base, and otherwise a separator is added when the base is non-empty and
  does not already end in one.
* `parent` is `Path::parent`: trailing empty and `.` components are dropped,
  then the last component, then again the empty and `.` components before it;
  the root and the empty path have no parent.
* `resolve` reads the `/`-separated segments left to right. Empty and `.`
  segments change nothing; `..` removes the innermost component (at the root it
  stays at the root, and a relative path keeps a leading `..`); any other
  segment is appended.
* `within dir p` says that `p` resolves to `dir` or to a place below it.

## The model

A path is its string. Resolution is lexical: symbolic links are not followed,
which is the reading of "after resolving `.` and `..`" that a directory
confinement check can be held to. `segments` splits on every `/` and keeps the
empty segments, as `str::split` does; the resolved form of a path is the list of
its components, outermost first.
-/

namespace Posix

/-- Whether a path has a root (`Path::is_absolute` on Unix, and also what
`str::starts_with('/')` tests): it starts with `/`. -/
def isAbsolute (p : String) : Bool := p.toList.head? == some '/'

/-- Puts a character in front of the first segment. -/
def consFirst (c : Char) : List (List Char) → List (List Char)
  | [] => [[c]]
  | s :: ss => (c :: s) :: ss

/-- The `/`-separated segments of a character list, empty ones included, as
`str::split('/')` yields them: `"a//b"` has the segments `a`, ``, `b`. -/
def segments : List Char → List (List Char)
  | [] => [[]]
  | c :: cs => if c = '/' then [] :: segments cs else consFirst c (segments cs)

/-- A segment that resolution skips: empty (a doubled or a trailing `/`) or `.`. -/
def skipped (s : List Char) : Bool := s.isEmpty || s == ['.']

/-- Reads one segment into the resolved components, kept innermost first. -/
def push (rooted : Bool) (st : List String) (seg : List Char) : List String :=
  if skipped seg then st
  else if seg = ['.', '.'] then
    match st with
    | [] => if rooted then [] else [".."]
    | top :: rest => if top = ".." then ".." :: st else rest
  else String.ofList seg :: st

/-- The components of a path after resolving `.` and `..`, outermost first. -/
def resolve (p : String) : List String :=
  ((segments p.toList).foldl (push (isAbsolute p)) []).reverse

/-- `p` lies inside `dir`: both are rooted or both relative, and the resolved
components of `dir` begin those of `p`. -/
def within (dir p : String) : Prop :=
  isAbsolute p = isAbsolute dir ∧ resolve dir <+: resolve p

instance (dir p : String) : Decidable (within dir p) :=
  inferInstanceAs (Decidable (_ ∧ _))

/-- Whether `PathBuf::push` adds a separator: the base is non-empty and does not
end in `/`. -/
def needSep (base : String) : Bool :=
  match base.toList.getLast? with
  | some c => c != '/'
  | none => false

/-- `Path::join` on Unix. -/
def join (base p : String) : String :=
  if isAbsolute p then p
  else if needSep base then base ++ "/" ++ p
  else base ++ p

/-- Drops the trailing skipped segments, keeping the first segment (the root of
a rooted path, or the only component of a one-component path). -/
def trimEnd : List (List Char) → List (List Char)
  | [] => []
  | s :: ss => s :: ss.rdropWhile skipped

/-- `Path::parent` on Unix. -/
def parent (p : String) : Option String :=
  match trimEnd (segments p.toList) with
  | [] => none
  | [s] => if s = [] then none else some ""
  | s :: ss =>
    match trimEnd (s :: ss.dropLast) with
    | [[]] => some "/"
    | q => some (String.ofList (List.intercalate ['/'] q))

end Posix
