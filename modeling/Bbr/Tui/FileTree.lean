import Bbr.Diff.Print
import Bbr.Lib.Forests

/-!
# The File Tree

The Files of a Diff under their directories. Chains of directories are shown as one row, and the rows
inside a collapsed directory are left out. Files are known by their place in the Diff.
-/
namespace Bbr.Tui.FileTree

open Bbr.Diff Bbr.Lib

inductive Identity where
  | directory (path : Bytes)
  | file (index : Nat)
  deriving DecidableEq, Repr

structure Entry where
  identity : Identity
  parent : Option Identity
  depth : Nat
  label : Bytes
  expanded : Bool := false
  active : Bool := false
  activeDescendant : Bool := false
  status : Option FileStatus := none
  comments : Nat := 0
  drafts : Nat := 0
  tally : Bytes := []
  tallyWidth : Nat := 0
  deriving DecidableEq, Repr

structure Projection where
  entries : List Entry
  cursor : Nat
  scroll : Nat
  viewport : Nat
  deriving DecidableEq, Repr

structure FileTally where
  comments : Nat := 0
  drafts : Nat := 0
  deriving DecidableEq, Repr

structure Measurement where
  byteLen : Nat
  cellWidth : Nat

structure CellMetrics where
  nextCell : Bytes → Measurement
  measure : Option (Bytes → Nat)

namespace CellMetrics

/-- Every byte is a cell. -/
def bytes : CellMetrics := ⟨fun text => ⟨min 1 text.length, min 1 text.length⟩, none⟩

/-- A faulty measure of the length counts as one byte. -/
def next (self : CellMetrics) (text : Bytes) : Measurement :=
  if text.isEmpty then ⟨0, 0⟩
  else
    let measured := self.nextCell text
    ⟨if measured.byteLen = 0 ∨ text.length < measured.byteLen then 1 else measured.byteLen,
      measured.cellWidth⟩

def isNarrowAscii (text : Bytes) : Bool := text.all (fun b => decide (0x20 ≤ b) && decide (b < 0x7f))

def widthFrom (self : CellMetrics) : Nat → Nat → Bytes → Nat
  | 0, total, _ => total
  | fuel + 1, total, rest =>
    if rest.isEmpty then total
    else
      let measured := self.next rest
      self.widthFrom fuel (total + measured.cellWidth) (rest.drop measured.byteLen)

def width (self : CellMetrics) (text : Bytes) : Nat :=
  if isNarrowAscii text then text.length
  else match self.measure with
    | some measure => measure text
    | none => self.widthFrom text.length 0 text

end CellMetrics

def ellipsis : Bytes := [0xe2, 0x80, 0xa6]
def commentMark : Bytes := [0xe2, 0x97, 0x8f]
def draftMark : Bytes := [0xe2, 0x9c, 0x8e]

/-- How many bytes fit into the cells. -/
def fittingBytes (metrics : CellMetrics) (limit : Nat) (text : Bytes) : Nat → Nat → Nat → Nat
  | 0, _, byteEnd => byteEnd
  | fuel + 1, used, byteEnd =>
    if byteEnd < text.length then
      let measurement := metrics.next (text.drop byteEnd)
      if limit < used + measurement.cellWidth then byteEnd
      else fittingBytes metrics limit text fuel (used + measurement.cellWidth)
        (byteEnd + measurement.byteLen)
    else byteEnd

def truncate (text : Bytes) (width : Nat) (metrics : CellMetrics) : Bytes :=
  if metrics.width text ≤ width then text
  else if width = 0 then []
  else if width = 1 then ellipsis
  else text.take (fittingBytes metrics (width - 1) text text.length 0 0) ++ ellipsis

def makeTally (comments drafts : Nat) : Bytes :=
  if comments = 0 ∧ drafts = 0 then []
  else if 0 < comments ∧ 0 < drafts then
    commentMark ++ decimal comments ++ ascii " " ++ draftMark ++ decimal drafts
  else if 0 < comments then commentMark ++ decimal comments
  else draftMark ++ decimal drafts

/-- What stands behind the last slash. -/
def leaf (path : Bytes) : Bytes := (path.reverse.takeWhile (fun b => b != slash)).reverse

def displayPath (file : File) : Bytes :=
  if file.status = .removed then file.oldPath else file.newPath

/-- The directories that end at a slash from the place `i` on; the segment there has begun at
`segmentStart`. -/
def directoriesFrom (path : Bytes) : Nat → Nat → Bytes → List Bytes
  | _, _, [] => []
  | i, segmentStart, b :: rest =>
    if b = slash then
      (if segmentStart < i then [path.take i] else []) ++ directoriesFrom path (i + 1) (i + 1) rest
    else directoriesFrom path (i + 1) segmentStart rest

def directoryPaths (path : Bytes) : List Bytes := directoriesFrom path 0 0 path

def containsPath (paths : List Bytes) (wanted : Bytes) : Bool := paths.any (fun path => path == wanted)

def pathDescends (path directory : Bytes) : Bool :=
  decide (directory.length < path.length) && directory.isPrefixOf path &&
    path[directory.length]? == some slash

section Tree

variable (diff : Diff.Diff)

def filePath (index : Fin diff.files.length) : Bytes := displayPath (diff.files.get index)

def nodePath : Fin diff.files.length ⊕ Bytes → Bytes
  | .inl index => filePath diff index
  | .inr path => path

/-- By path; a directory goes in front of a File. -/
def less (a b : Fin diff.files.length ⊕ Bytes) : Bool :=
  if nodePath diff a = nodePath diff b then a.isRight && b.isLeft
  else decide (nodePath diff a < nodePath diff b)

def insertFile (nodes : Forest Bytes (Fin diff.files.length)) (index : Fin diff.files.length) :
    Forest Bytes (Fin diff.files.length) :=
  nodes.put (directoryPaths (filePath diff index)) index

/-- The children of the root, sorted. -/
def nodes : Forest Bytes (Fin diff.files.length) :=
  Forest.sortOnto (less diff) .nil ((List.finRange diff.files.length).foldl (insertFile diff) .nil)

end Tree

section Rows

variable (diff : Diff.Diff) (tallies : Fin diff.files.length → FileTally)
  (collapsed : List Bytes) (activeFile : Option (Fin diff.files.length)) (contentWidth : Nat)
  (metrics : CellMetrics)

def fileEntry (index : Fin diff.files.length) (parent : Option Identity) (depth : Nat) : Entry :=
  let fileTally := tallies index
  let tally := makeTally fileTally.comments fileTally.drafts
  let fixed := 3 + metrics.width tally
  let indent := min (depth * 2) (contentWidth - fixed)
  { identity := .file index
    parent := parent
    depth := indent / 2
    label := truncate (leaf (filePath diff index)) (contentWidth - fixed - indent) metrics
    active := activeFile == some index
    status := some (diff.files.get index).status
    comments := fileTally.comments
    drafts := fileTally.drafts
    tally := tally
    tallyWidth := metrics.width tally }

/-- The path behind the parent directory. -/
def relativePath (parent : Option Identity) (path : Bytes) : Bytes :=
  match parent with
  | some (.directory parentPath) =>
    if parentPath.isEmpty then path else path.drop (min path.length (parentPath.length + 1))
  | _ => path

def directoryEntry (path : Bytes) (parent : Option Identity) (depth : Nat) : Entry where
  identity := .directory path
  parent := parent
  depth := min depth ((contentWidth - 2) / 2)
  label := truncate (relativePath parent path ++ [slash])
    (contentWidth - min (depth * 2 + 2) contentWidth) metrics
  expanded := !containsPath collapsed path
  activeDescendant := activeFile.any (fun index => pathDescends (filePath diff index) path)

/-- The rows of siblings. The fuel bounds the nodes on the way. -/
def emit : Nat → Forest Bytes (Fin diff.files.length) → Option Identity → Nat → List Entry
  | 0, _, _, _ => []
  | _ + 1, .nil, _, _ => []
  | fuel + 1, .item index rest, parent, depth =>
    fileEntry diff tallies activeFile contentWidth metrics index parent depth ::
      emit fuel rest parent depth
  | fuel + 1, .group path members rest, parent, depth =>
    let last := Forest.chainEnd path members
    directoryEntry diff collapsed activeFile contentWidth metrics last.1 parent depth ::
      ((if containsPath collapsed last.1 then []
        else emit fuel last.2 (some (.directory last.1)) (depth + 1)) ++ emit fuel rest parent depth)

end Rows

def findVisible (entries : List Entry) (wanted : Identity) : Option Nat :=
  entries.findIdx? (fun entry => entry.identity == wanted)

def Entry.isDirectory (entry : Entry) : Bool :=
  match entry.identity with
  | .directory _ => true
  | .file _ => false

/-- `count` is the number of nodes with the root. -/
def nearestVisibleAncestor (entries : List Entry) (count : Nat) (wanted : Identity) : Option Nat :=
  match wanted with
  | .directory _ => none
  | .file index =>
    if count ≤ index then none
    else entries.findIdx? (fun entry =>
      entry.isDirectory && !entry.expanded && entry.activeDescendant)

/-- The cursor that is asked for, kept in range. -/
def cursorOf (entries : List Entry) (count : Nat) (wantedCursor : Option Identity) : Nat :=
  let cursor := match wantedCursor with
    | none => 0
    | some wanted =>
      ((findVisible entries wanted).or (nearestVisibleAncestor entries count wanted)).getD 0
  if 0 < entries.length then min cursor (entries.length - 1) else cursor

def scrollOf (len cursor viewport wantedScroll : Nat) : Nat :=
  let scroll := min wantedScroll (len - viewport)
  let scroll := if cursor < scroll then cursor else scroll
  if 0 < viewport ∧ scroll + viewport ≤ cursor then cursor + 1 - viewport else scroll

def build (diff : Diff.Diff) (tallies : Fin diff.files.length → FileTally)
    (collapsed : List Bytes) (activeFile : Option (Fin diff.files.length))
    (contentWidth viewport : Nat) (wantedCursor : Option Identity) (wantedScroll : Nat)
    (metrics : CellMetrics) : Projection :=
  let nodes := nodes diff
  let entries := emit diff tallies collapsed activeFile contentWidth metrics (nodes.size + 1) nodes
    none 0
  let cursor := cursorOf entries (nodes.size + 1) wantedCursor
  ⟨entries, cursor, scrollOf entries.length cursor viewport wantedScroll, viewport⟩

end Bbr.Tui.FileTree
