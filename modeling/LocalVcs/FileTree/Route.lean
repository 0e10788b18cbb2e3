/-
# Routes

A route is a way through a file tree as it is written: where it starts, and the segments between its
slashes.  Empty segments and `.` stay where they are, `..` goes up, and symbolic links lead on from
where they stand, or from the top.  A file system refuses a route that is too long to be told.

`Route.join` is how a path takes up a text that was written by somebody else: one that starts at the
top leaves the path behind.

* `FileTree.locate`: the path that a route leads to, with the last segment's link followed.
* `FileTree.locateEntry`: the path of the last segment itself.
* `FileTree.walk_name`: the name of an entry that is no link leads to that entry.
* `FileTree.locate_eq`: the short cut that `locate` takes leads where the whole way leads.
-/
import LocalVcs.FileTree

namespace LocalVcs

/-- A way through a file tree as it is written. -/
structure Route where
  start : Path
  segments : List FileName
  deriving DecidableEq

/-- The names between the slashes of a text. -/
def segmentsOf (text : String) : List FileName :=
  (text.toList.splitOn '/').map fun cs => .text (String.ofList cs)

/-- Whether a written path starts at the top. -/
def isAbsolute (text : String) : Bool := text.toList.head? = some '/'

namespace Route

/-- The route on from here by a written path; one that starts with a slash starts at the top. -/
def join (r : Route) (text : String) : Route :=
  if isAbsolute text then ⟨[], (segmentsOf text).tail⟩
  else ⟨r.start, r.segments ++ segmentsOf text⟩

/-- The route on from here by one name. -/
def child (r : Route) (name : FileName) : Route := ⟨r.start, r.segments ++ [name]⟩

/-- Whether a segment goes somewhere. -/
def goes (segment : FileName) : Bool := segment ≠ "" ∧ segment ≠ "."

/-- The segments that go somewhere. -/
def steps (r : Route) : List FileName := r.segments.filter goes

/-- The route to where the last step is taken. -/
def parent (r : Route) : Route :=
  let idle (segment : FileName) := !goes segment
  ⟨r.start, ((r.segments.reverse.dropWhile idle).tail.dropWhile idle).reverse⟩

/-- The bytes of names, each with the slash before it. -/
def bytesOf : List FileName → Nat
  | [] => 0
  | name :: rest => name.size + 1 + bytesOf rest

/-- The longest route, in bytes, that can be told to a file system. -/
def longest : Nat := 4095

/-- Whether a route can be told to a file system: it is not too long and has no NUL in it. -/
def CanTell (r : Route) : Prop :=
  bytesOf r.start + bytesOf r.segments ≤ longest ∧ ∀ s ∈ r.segments, '\x00' ∉ s.chars

instance (r : Route) : Decidable r.CanTell := by
  unfold CanTell; infer_instance

end Route

namespace FileTree

/-! ## 1. Following segments -/

/-- Follows segments from a path on.  Every segment needs a directory to start from, the last one
may name what is not there yet.  `onward` goes on behind a link. -/
def walk (t : FileTree) (onward : Path → List FileName → Option Path) :
    Path → List FileName → Option Path
  | here, [] => some here
  | here, s :: rest =>
    if t.at? here ≠ some .dir then none
    else if s = "" ∨ s = "." then walk t onward here rest
    else if s = ".." then walk t onward here.tail rest
    else if ¬ValidName s then none
    else
      match t.at? (s :: here) with
      | some (.link target) =>
        onward (if isAbsolute target then [] else here) (segmentsOf target ++ rest)
      | some _ => walk t onward (s :: here) rest
      | none => if rest.isEmpty then some (s :: here) else none

theorem walk_name {t : FileTree} {onward : Path → List FileName → Option Path} {here : Path}
    {name : FileName} {rest : List FileName} {e : Entry} (h : t.at? (name :: here) = some e)
    (noLink : ∀ target, e ≠ .link target) :
    t.walk onward here (name :: rest) = t.walk onward (name :: here) rest := by
  obtain ⟨valid, inDir⟩ := at?_of_cons h
  obtain ⟨nonempty, noDot, noDots, -⟩ := id valid
  cases e with
  | link target => exact absurd rfl (noLink target)
  | file content => simp [walk, inDir, nonempty, noDot, noDots, valid, h]
  | dir => simp [walk, inDir, nonempty, noDot, noDots, valid, h]

/-- Follows segments from a path on, behind at most so many links. -/
def follow (t : FileTree) : Nat → Path → List FileName → Option Path
  | 0 => t.walk fun _ _ => none
  | links + 1 => t.walk (follow t links)

/-- The most links that one route may lead through. -/
def mostLinks : Nat := 40

/-- The path that a route leads to.  What stands there is no link, or nothing stands there yet.
Where the names before the last one lead to a directory as they are written, only the last one is
followed. -/
def locate (t : FileTree) (r : Route) : Option Path :=
  if r.CanTell then
    let above := r.segments.dropLast.reverse ++ r.start
    if t.at? above = some .dir then t.follow mostLinks above r.segments.getLast?.toList
    else t.follow mostLinks r.start r.segments
  else none

/-- The path of a route's last segment, taken as it is when it is a link. -/
def locateEntry (t : FileTree) (r : Route) : Option Path :=
  match r.segments.getLast? with
  | none => none
  | some name =>
    if r.CanTell ∧ ValidName name then
      (t.locate ⟨r.start, r.segments.dropLast⟩).bind fun parent =>
        if t.at? parent = some .dir then some (name :: parent) else none
    else none

theorem walk_names {t : FileTree} {onward : Path → List FileName → Option Path}
    {names : List FileName} {here : Path} {rest : List FileName}
    (h : t.at? (names.reverse ++ here) = some .dir) :
    t.walk onward here (names ++ rest) = t.walk onward (names.reverse ++ here) rest := by
  induction names generalizing here with
  | nil => rfl
  | cons name names ih =>
    simp only [List.reverse_cons, List.append_assoc, List.singleton_append] at h
    have inDir : t.at? (name :: here) = some .dir :=
      mem_listings.mp (mem_listings_of_suffix (mem_listings.mpr h) (List.suffix_append _ _))
    rw [List.cons_append, walk_name inDir (by simp), ih h, List.reverse_cons, List.append_assoc,
      List.singleton_append]

theorem locate_eq {t : FileTree} {r : Route} :
    t.locate r = if r.CanTell then t.follow mostLinks r.start r.segments else none := by
  unfold locate
  congr 1
  dsimp only
  split
  · rename_i h
    have whole : r.segments.dropLast ++ r.segments.getLast?.toList = r.segments := by
      cases hlast : r.segments.getLast? with
      | none => simp_all
      | some name =>
        obtain ⟨front, hfront⟩ := List.getLast?_eq_some_iff.mp hlast
        simp [hfront]
    conv => rhs; rw [← whole]
    exact (walk_names h).symm
  · rfl

/-! ## 2. Looking -/

/-- What stands at the end of a route, links followed. -/
def lookup? (t : FileTree) (r : Route) : Option Entry := (t.locate r).bind t.at?

/-- Whether a route leads to anything. -/
def exists? (t : FileTree) (r : Route) : Bool := (t.lookup? r).isSome

/-- Whether a route leads to a file. -/
def isFile (t : FileTree) (r : Route) : Bool :=
  match t.lookup? r with
  | some (.file _) => true
  | _ => false

/-- Whether a route leads to a directory. -/
def isDir (t : FileTree) (r : Route) : Bool := t.lookup? r = some .dir

/-- The contents of the file that a route leads to. -/
def contents? (t : FileTree) (r : Route) : Option Content :=
  match t.lookup? r with
  | some (.file content) => some content
  | _ => none

/-- The bytes of the file that a route leads to. -/
def bytes? (t : FileTree) (r : Route) : Option Bytes := (t.contents? r).map Content.bytes

/-- The text of the file that a route leads to, if it is UTF-8. -/
def text? (t : FileTree) (r : Route) : Option String := (t.bytes? r).bind Bytes.text?

/-- The entries of the directory that a route leads to, links as themselves, in name order. -/
def list? (t : FileTree) (r : Route) : Option (List (FileName × Entry)) :=
  (t.locate r).bind fun path =>
    if t.at? path = some .dir then some (t.children path) else none

/-- Names and contents of the plain files among entries. -/
def filesOf (entries : List (FileName × Entry)) : List (FileName × Content) :=
  entries.filterMap fun
    | (name, .file content) => some (name, content)
    | _ => none

/-- The files at any depth below a path, each by its names from there on, links not followed. -/
def filesBelow (t : FileTree) (path : Path) : List (List FileName) :=
  t.entries.filterMap fun
    | (p, .file _) =>
      if path.isSuffixOf p then some (p.take (p.length - path.length)).reverse else none
    | _ => none

end FileTree

end LocalVcs
