/-
# The program

Reads the working directory as a file tree, runs the command line on it, and writes back what has
changed.

This is `main`.
-/
import LocalVcs.CommandLine
import LocalVcs.Deflate
import LocalVcs.FileTree.Difference

namespace LocalVcs.Disk

/-- The text of a path from the top of the file system. -/
def textOf (path : Path) : String := "/" ++ "/".intercalate (path.reverse.map FileName.shown)

/-- The path that a text from the top of the file system names. -/
def pathOf (text : String) : Path := ((segmentsOf text).filter fun (s : FileName) => s ≠ "").reverse

/-- The contents of a file.  The files of an object store hold packed bytes. -/
def contentOf (root path : Path) (bytes : Bytes) : Content :=
  match path with
  | _ :: _ :: store :: above =>
    let stores : List FileName := [Kind.blob, .commit].map fun kind => Layout.storeName kind
    if above = .text Layout.metaName :: root ∧ store ∈ stores then
      ((Deflate.unpack? bytes).map .packed).getD (.plain bytes)
    else .plain bytes
  | _ => .plain bytes

/-- The bytes that a file with these contents has on disk. -/
def onDisk : Content → ByteArray
  | .plain bytes => ⟨bytes.toArray⟩
  | .packed bytes => ⟨(Deflate.pack bytes).toArray⟩

/-- Reads what stands in a directory into a tree. -/
partial def load (root path : Path) (tree : FileTree) : IO FileTree := do
  let dir ← IO.FS.realPath (textOf path)
  let mut tree := tree
  for found in ← dir.readDir do
    let here : Path := found.fileName :: path
    match (← found.path.symlinkMetadata).type with
    | .dir => tree ← load root here ((tree.place? here .dir).getD tree)
    | .file =>
      let bytes ← IO.FS.readBinFile found.path
      let content := contentOf root here bytes.data.toList
      tree := (tree.place? here (.file content)).getD tree
    | .symlink =>
      let target ← IO.FS.realPath found.path
      tree := (tree.place? here (.link target.toString)).getD tree
    | .other => pure ()
  return tree

/-- Makes one change. -/
def apply : FileTree.Edit → IO Unit
  | .removeFile path => IO.FS.removeFile (textOf path)
  | .removeDir path => IO.FS.removeDir (textOf path)
  | .makeDir path => IO.FS.createDir (textOf path)
  | .write path content => IO.FS.writeBinFile (textOf path) (onDisk content)

/-- The time by the clock of the file system: that of a file made just now. -/
def now : IO Time.Moment := IO.FS.withTempFile fun _ path => do
  let made ← path.metadata
  let fraction := made.modified.nsec.toNat
  return (Time.Moment.of? made.modified.sec fraction 0).getD Time.Moment.epoch

end LocalVcs.Disk

open LocalVcs

/-- Runs the command line on the working directory, with the date for new commits taken from the
environment and logs shown in UTC. -/
def main (arguments : List String) : IO UInt32 := do
  let rootText := (← IO.currentDir).toString
  let root := Disk.pathOf rootText
  let above := (FileTree.empty.makeDirs ⟨[], root.reverse⟩).2
  let old ← Disk.load root root above
  let settings : Settings := ⟨root, ← IO.getEnv "GITLET_DATE", ← Disk.now, fun _ => 0⟩
  let (ending, new, fault) := CommandLine.run settings arguments old
  for edit in FileTree.edits old new do
    Disk.apply edit
  IO.print ending.output
  match fault with
  | some fault => IO.eprintln ("Error: " ++ fault.message rootText)
  | none => pure ()
  return UInt32.ofNat ending.code
