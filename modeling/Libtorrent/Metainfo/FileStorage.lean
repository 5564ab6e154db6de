import Libtorrent.Lib.Vec
import Libtorrent.Lib.Wrap
import Libtorrent.Bencode.Entry

/-!
# `file_storage`

The path of a file is kept in two parts: its directory in `m_paths` and its name in the entry. The name is owned by the
entry, or it points into the info section; then `name_len`, a signed bit-field of 10 bits, is its length.
-/

namespace Libtorrent.Metainfo

open Bencode Vec

/-!
## Paths

The functions of `file.cpp` that take paths apart and put them together, on POSIX. A `std::string` may have NUL
characters; what a function sees of it through `c_str()` ends at the first one. The characters are `/` 47, `.` 46, `\`
92, `:` 58 and `_` 95.
-/

def cStr (s : Bytes) : Bytes := s.takeWhile (· ≠ 0)

def bytes (s : String) : Bytes := s.toList.map fun c => UInt8.ofNat c.toNat

def strrchr (c : UInt8) : Bytes → Option Nat
  | [] => none
  | x :: s =>
    match strrchr c s with
    | some i => some (i + 1)
    | none => if x = c then some 0 else none

/-- `split_path(f)` and the loop with `next_path_element` over what it returns: the elements that are not empty. -/
def splitPath (f : Bytes) : List Bytes := ((cStr f).splitOn 47).filter (· ≠ [])

def extension (f : Bytes) : Bytes :=
  match strrchr 46 (cStr f) with
  | none => []
  | some i => (cStr f).drop i

def replaceExtension (f ext : Bytes) : Bytes :=
  match strrchr 46 (cStr f) with
  | none => f ++ [46] ++ ext
  | some i => f.take (i + 1) ++ ext

def isSeparator (f : Bytes) (i : Nat) : Bool := f.getD i 0 = 47 || f.getD i 0 = 92

def parentLoop (f : Bytes) : (len : Nat) → Nat
  | 0 => 0
  | len + 1 => if isSeparator f len then len else parentLoop f len

def parentPath (f : Bytes) : Bytes :=
  if f = [] then f
  else if f = [47] then []
  else
    let len := if isSeparator f (f.length - 1) then f.length - 1 else f.length
    let len := parentLoop f len
    f.take (if isSeparator f len then len + 1 else len)

/-- The loop of `filename` for a path that ends with a slash. -/
def filenameLoop (f : Bytes) : (sep len : Nat) → Bytes
  | 0, len => f.take len
  | sep + 1, len => if f.getD sep 0 = 47 then (f.drop (sep + 1)).take len else filenameLoop f sep (len + 1)

def filename (f : Bytes) : Bytes :=
  if f = [] then []
  else
    match strrchr 47 (cStr f) with
    | none => f
    | some sep => if sep = f.length - 1 then filenameLoop f sep 0 else cStr (f.drop (sep + 1))

def combinePath (lhs rhs : Bytes) : Bytes :=
  if lhs = [] ∨ lhs = [46] then rhs
  else if rhs = [] ∨ rhs = [46] then lhs
  else cStr lhs ++ (if lhs.getLast? ≠ some 47 then [47] else []) ++ cStr rhs

/-! ## The files -/

/-- A value stored in a signed bit-field. -/
def bitField (bits : Nat) (x : Int) : Int := x.bmod (2 ^ bits)

structure FileEntry where
  path : Bytes
  size : Int
  mtime : Int
  padFile : Bool
  hiddenAttribute : Bool
  executableAttribute : Bool
  symlinkAttribute : Bool
  symlinkPath : Bytes

def FileEntry.empty : FileEntry := ⟨[], 0, 0, false, false, false, false, []⟩

structure InternalFileEntry where
  name : Bytes
  offset : Int
  symlinkIndex : Int
  size : Int
  nameLen : Int
  padFile : Bool
  hiddenAttribute : Bool
  executableAttribute : Bool
  symlinkAttribute : Bool
  pathIndex : Int

namespace InternalFileEntry

def setName (e : InternalFileEntry) (n : Bytes) (borrowChars : Nat) : InternalFileEntry :=
  { e with name := if n.head? = some 0 then [] else n, nameLen := bitField 10 (min borrowChars 1023) }

/-- `filename()`; a negative length makes the constructor of `std::string` throw. -/
def filename (e : InternalFileEntry) : Option Bytes :=
  if e.nameLen = 0 then some (cStr e.name) else if e.nameLen < 0 then none else some (e.name.take e.nameLen.toNat)

def ofFileEntry (e : FileEntry) : InternalFileEntry :=
  setName ⟨[], 0, -1, bitField 48 e.size, 0, e.padFile, e.hiddenAttribute, e.executableAttribute,
    e.symlinkAttribute, -1⟩
    e.path 0

end InternalFileEntry

structure FileStorage where
  files : List InternalFileEntry
  fileHashes : List (Option Int)
  symlinks : List Bytes
  mtime : List Int
  paths : List Bytes
  name : Bytes
  totalSize : Int
  numPieces : Int
  pieceLength : Int

namespace FileStorage

def empty : FileStorage := ⟨[], [], [], [], [], [], 0, 0, 0⟩

def updatePathIndex (fs : FileStorage) (e : InternalFileEntry) (name : Bytes) : FileStorage × InternalFileEntry :=
  let parent := parentPath name
  if parent = [] then (fs, { e with pathIndex := -1 })
  else
    let e := e.setName (cStr (filename name)) 0
    if parent ∈ fs.paths then
      (fs, { e with pathIndex := fs.paths.length - 1 - fs.paths.reverse.idxOf parent })
    else ({ fs with paths := fs.paths ++ [parent] }, { e with pathIndex := fs.paths.length })

/-- What `add_file` does before it takes the path apart: the new entry, and what is kept in the other vectors. -/
def prepareFile (fs : FileStorage) (ent : FileEntry) (filehash : Option Int) : FileStorage × InternalFileEntry :=
  let e := InternalFileEntry.ofFileEntry ent
  let n := fs.files.length + 1
  ({ fs with
      totalSize := int64 (fs.totalSize + max e.size 0)
      fileHashes := if filehash.isSome then (resize fs.fileHashes n none).set (n - 1) filehash else fs.fileHashes
      symlinks := if ent.symlinkPath ≠ [] then fs.symlinks ++ [ent.symlinkPath] else fs.symlinks
      mtime := if ent.mtime ≠ 0 then (resize fs.mtime n 0).set (n - 1) ent.mtime else fs.mtime },
    { e with
      size := max e.size 0
      offset := bitField 48 fs.totalSize
      symlinkIndex := if ent.symlinkPath ≠ [] then bitField 16 fs.symlinks.length else -1 })

/-- `add_file(ent, filehash)`, where the hash is a position in the info section. -/
def addFile (fs : FileStorage) (ent : FileEntry) (filehash : Option Int) : FileStorage :=
  let (fs, e) := fs.prepareFile ent filehash
  let (fs, e) := fs.updatePathIndex e (cStr e.name)
  { fs with files := fs.files ++ [e] }

/-- `file_path(fe)`, unless it throws. -/
def filePath (fs : FileStorage) (fe : InternalFileEntry) : Option Bytes :=
  fe.filename.map fun name =>
    if fe.pathIndex = -1 then name else combinePath (fs.paths.getD fe.pathIndex.toNat []) name

end FileStorage

end Libtorrent.Metainfo
