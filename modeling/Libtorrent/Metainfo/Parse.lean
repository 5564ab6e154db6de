import Libtorrent.Bencode.Lazy
import Libtorrent.Merkle.Tree
import Libtorrent.Metainfo.FileStorage

/-!
# Loading a torrent

`torrent_info::parse_info_section` with the functions it is made of, on the entries that `lazy_bdecode` leaves and the
buffer they point into. SHA-1 is a parameter, and so is the memory around the copy of the info section.
-/

namespace Libtorrent.Metainfo

open Bencode

/-! ## Reading entries -/

variable (buf : Bytes)

def dictFind (name : Bytes) : LazyEntry → Option LazyEntry
  | .dict items _ _ => (items.find? fun item => (dictItem buf item).1 = name).map Prod.snd
  | _ => none

def isString : LazyEntry → Bool
  | .string .. => true
  | _ => false

def isList : LazyEntry → Bool
  | .list .. => true
  | _ => false

def dictFindString (buf name : Bytes) (l : LazyEntry) : Option LazyEntry := (dictFind buf name l).filter isString

def dictFindList (buf name : Bytes) (l : LazyEntry) : Option LazyEntry := (dictFind buf name l).filter isList

def dictFindIntValue (buf name : Bytes) (defaultVal : Int) (l : LazyEntry) : Int :=
  match dictFind buf name l with
  | some (.int start size _ _) => intValue buf start size
  | _ => defaultVal

def listItems : LazyEntry → List LazyEntry
  | .list items _ _ => items
  | _ => []

def stringLength : LazyEntry → Nat
  | .string _ size _ _ => size
  | .int _ size _ _ => size
  | .list items _ _ => items.length
  | .dict items _ _ => items.length
  | .none => 0

/-- `string_ptr()`; for a list or dictionary it points outside of the buffer. -/
def stringPtr : LazyEntry → Option Int
  | .string start _ _ _ => some start
  | .int start _ _ _ => some start
  | _ => none

/-- `string_value()`. For a list or dictionary with items it is made of the memory they are in. -/
def stringValue (l : LazyEntry) : Option Bytes :=
  match stringPtr l with
  | some start => some (slice buf start (stringLength l))
  | none => if stringLength l = 0 then some [] else none

/-! ## Cleaning paths -/

def validPathCharacter (c : UInt8) : Bool := !(c < 32)

def encodingLoop (fixPaths : Bool) : Bytes → Bytes × Bool
  | [] => ([], true)
  | c :: s =>
    if c &&& 0x80 = 0 then
      let (tmp, valid) := encodingLoop fixPaths s
      if !fixPaths || validPathCharacter c then (c :: tmp, valid) else (95 :: tmp, false)
    else match s with
      | [] => ([95], false)
      | c₁ :: s₁ =>
        if c &&& 0xe0 = 0xc0 ∧ c₁ &&& 0xc0 = 0x80 then
          let (tmp, valid) := encodingLoop fixPaths s₁
          (c :: c₁ :: tmp, valid)
        else match s₁ with
          | [] => ([95], false)
          | c₂ :: s₂ =>
            if c &&& 0xf0 = 0xe0 ∧ c₁ &&& 0xc0 = 0x80 ∧ c₂ &&& 0xc0 = 0x80 then
              let (tmp, valid) := encodingLoop fixPaths s₂
              (c :: c₁ :: c₂ :: tmp, valid)
            else match s₂ with
              | [] => ([95], false)
              | c₃ :: s₃ =>
                if c &&& 0xf8 = 0xf0 ∧ c₁ &&& 0xc0 = 0x80 ∧ c₂ &&& 0xc0 = 0x80 ∧ c₃ &&& 0xc0 = 0x80 then
                  let (tmp, valid) := encodingLoop fixPaths s₃
                  (c :: c₁ :: c₂ :: c₃ :: tmp, valid)
                else (95 :: (encodingLoop fixPaths (c₁ :: c₂ :: c₃ :: s₃)).1, false)

def verifyEncoding (target : Bytes) (fixPaths : Bool) : Bytes :=
  let (tmp, valid) := encodingLoop fixPaths target
  if valid then target else tmp

def validPathElement (element : Bytes) : Bool :=
  !(element = [] || element = [46] || element = [46, 46] || element.head? = some 47 || element.head? = some 92 ||
    element.getLast? = some 58)

def torrentMaxPath : Nat := 4096

def trimPathElement (element : Bytes) : Bytes :=
  if element.length ≤ torrentMaxPath then element
  else
    let ext := extension element
    if ext.length > 15 then element.take torrentMaxPath
    else element.take (torrentMaxPath - ext.length) ++ ext

def sanitizePath (p : Bytes) : Bytes :=
  (splitPath p).foldl
    (fun newPath pe => if validPathElement pe then combinePath newPath (trimPathElement pe) else newPath) []

/-! ## Files -/

/-- `m_info_section`: a pointer into the original is one into the copy when `info_ptr_diff` is added. -/
structure InfoCopy where
  ptrDiff : Int
  memory : Int → UInt8

/-- The copy has as many bytes as `m_info_section_size`, a bit-field of 24 bits, says. -/
def copyInfoSection (heap : Int → UInt8) (buf : Bytes) (start len : Int) : InfoCopy :=
  ⟨-start, fun pos => if 0 ≤ pos ∧ pos < len % 2 ^ 24 then buf.getD (start + pos).toNat 0 else heap pos⟩

def InfoCopy.string (copy : InfoCopy) (pos : Int) (n : Nat) : Bytes :=
  (List.range n).map fun (k : Nat) => copy.memory (pos + copy.ptrDiff + k)

inductive TorrentError where
  | torrentInfoNoDict | torrentMissingPieceLength | torrentMissingName | torrentInvalidName | torrentFileParseFailed
  | torrentInvalidLength | torrentMissingPieces | torrentInvalidHashes
deriving DecidableEq

/-- How parsing ends without success: with an error, by reading memory that is not in the buffer, or not at all. -/
inductive Failure where
  | error (ec : TorrentError)
  | outside
  | unfinished
deriving DecidableEq

/-- The elements of `path` are put behind the root directory. -/
def joinPath (buf : Bytes) : Bytes → List LazyEntry → Option Bytes
  | path, [] => some path
  | path, l :: items =>
    match l with
    | .string start size _ _ =>
      let element := slice buf start size
      joinPath buf (if validPathElement element then combinePath path (trimPathElement element) else path) items
    | _ => none

def pathItems (dict : LazyEntry) : Option (List LazyEntry) :=
  (dictFindList buf (bytes "path.utf-8") dict <|> dictFindList buf (bytes "path") dict).map listItems

def lastElement (items : List LazyEntry) : Option LazyEntry :=
  items.getLast?.filter fun l => ((stringValue buf l).map validPathElement).getD false

def applyAttr (e : FileEntry) (c : UInt8) : FileEntry :=
  if c = 108 then { e with symlinkAttribute := true, size := 0 }
  else if c = 120 then { e with executableAttribute := true }
  else if c = 104 then { e with hiddenAttribute := true }
  else if c = 112 then { e with padFile := true }
  else e

def applyAttrs (dict : LazyEntry) (e : FileEntry) : FileEntry :=
  (((dictFindString buf (bytes "attr") dict).bind (stringValue buf)).getD []).foldl applyAttr e

def joinSymlink (buf : Bytes) : Bytes → List LazyEntry → Except Failure Bytes
  | path, [] => .ok path
  | path, l :: items =>
    match stringValue buf l with
    | none => .error .outside
    | some element => joinSymlink buf (combinePath path (trimPathElement element)) items

/-- What `extract_single_file` stores in its arguments. -/
structure SingleFile where
  target : FileEntry
  filehash : Option LazyEntry
  filename : Option LazyEntry
  mtime : Int

def isPadName (path : Bytes) : Bool := bytes "_____padding_file_" <:+: path

/-- `extract_single_file(dict, target, root_dir, filehash, filename, mtime)` for a new target. -/
def extractSingleFile (dict : LazyEntry) (rootDir : Bytes) : Except Failure SingleFile := do
  let fail : Failure := .error .torrentFileParseFailed
  match dict with
  | .dict .. => pure ()
  | _ => throw fail
  let size ← match dictFind buf (bytes "length") dict with
    | some (.int start size _ _) => pure (intValue buf start size)
    | _ => throw fail
  if size < 0 then throw fail
  let ts := dictFindIntValue buf (bytes "mtime") (-1) dict
  let mtime := if ts > 0 then ts else 0
  let p ← match pathItems buf dict with
    | some p => pure p
    | none => throw fail
  let path ← match joinPath buf rootDir p with
    | some path => pure path
    | none => throw fail
  let path := verifyEncoding (sanitizePath path) true
  let target := { FileEntry.empty with path := path, size := size, padFile := isPadName path }
  let target := applyAttrs buf dict target
  let fh := (dictFindString buf (bytes "sha1") dict).filter fun l => stringLength l = 20
  let symlinkPath ←
    if target.symlinkAttribute then
      joinSymlink buf [] (((dictFindList buf (bytes "symlink path") dict).map listItems).getD [])
    else pure []
  return ⟨{ target with symlinkPath := symlinkPath }, fh, lastElement buf p, mtime⟩

def toLower (c : UInt8) : UInt8 := if 65 ≤ c ∧ c ≤ 90 then c - 65 + 97 else c

/-- The order `string_less_no_case` does not tell two strings apart. -/
def equalNoCase (a b : Bytes) : Bool := (cStr a).map toLower = (cStr b).map toLower

def suffix (cnt : Int) (path : Bytes) : Bytes := (text cnt ++ cStr (extension path)).take 49

def renameLoop (files : List Bytes) : (fuel : Nat) → (cnt : Int) → Bytes → Option Bytes
  | 0, _, _ => none
  | fuel + 1, cnt, path =>
    if files.any (equalNoCase path) then
      let cnt := int32 (cnt + 1)
      renameLoop files fuel cnt (replaceExtension path (suffix cnt path))
    else some path

/-- The last entry of `m_files` borrows its name from the copy if it is the one in the buffer. -/
def borrowName (copy : InfoCopy) (target : FileStorage) (fee : Option LazyEntry) : FileStorage :=
  match fee.bind fun l => (stringPtr l).map (·, stringLength l), target.files.getLast? with
  | some (pos, n), some fe =>
    if fe.filename = some (slice buf pos n) then
      { target with files := target.files.dropLast ++ [fe.setName (copy.string pos n) n] }
    else target
  | _, _ => target

def extractLoop (buf rootDir : Bytes) (copy : InfoCopy) :
    List LazyEntry → FileStorage → List Bytes → Except Failure FileStorage
  | [], target, _ => .ok target
  | l :: items, target, files => do
    let f ← extractSingleFile buf l rootDir
    match renameLoop files (files.length + 1) 0 f.target.path with
    | none => throw .unfinished
    | some path =>
      let target := target.addFile { f.target with path := path } ((f.filehash.bind stringPtr).map (· + copy.ptrDiff))
      extractLoop buf rootDir copy items (borrowName buf copy target f.filename) (path :: files)

def extractFiles (list : LazyEntry) (target : FileStorage) (rootDir : Bytes) (copy : InfoCopy) :
    Except Failure FileStorage :=
  extractLoop buf rootDir copy (listItems list) target []

/-! ## The info section -/

def toHex (s : Bytes) : Bytes :=
  let hexChars := bytes "0123456789abcdef"
  s.flatMap fun c => [hexChars.getD (c.toNat / 16) 0, hexChars.getD (c.toNat % 16) 0]

/-- Where the piece hashes are: at a position of the info section, at memory of other entries, or in a merkle tree. -/
inductive PieceHashes where
  | section (pos : Int)
  | stray
  | merkle (tree : Merkle.Tree Bytes)

/-- What `parse_info_section` sets. -/
structure TorrentInfo where
  infoHash : Bytes
  files : FileStorage
  multifile : Bool
  pieces : PieceHashes
  isPrivate : Bool

def extractName (info : LazyEntry) (infoHash : Bytes) : Except Failure Bytes := do
  match (dictFindString buf (bytes "name.utf-8") info <|> dictFindString buf (bytes "name") info).bind
    (stringValue buf) with
  | none => throw (.error .torrentMissingName)
  | some name =>
    let name := sanitizePath (if name = [] then toHex infoHash else name)
    if !validPathElement name then throw (.error .torrentInvalidName)
    return verifyEncoding name true

/-- The entry for the file of a torrent without a list of files. -/
def singleEntry (info : LazyEntry) (name symlinkPath : Bytes) : FileEntry :=
  let e := applyAttrs buf info { FileEntry.empty with
    path := name
    size := dictFindIntValue buf (bytes "length") (-1) info
    mtime := dictFindIntValue buf (bytes "mtime") 0 info }
  { e with symlinkPath := symlinkPath, padFile := e.padFile || isPadName e.path }

def singleFile (info : LazyEntry) (name : Bytes) (fs : FileStorage) (infoPtrDiff : Int) :
    Except Failure FileStorage := do
  if dictFindIntValue buf (bytes "length") (-1) info < 0 then throw (.error .torrentFileParseFailed)
  let symlinkPath ← joinSymlink buf [] (((dictFindList buf (bytes "symlink path") info).map listItems).getD [])
  let e := singleEntry buf info name symlinkPath
  let fh := (dictFindString buf (bytes "sha1") info).filter fun l => stringLength l = 20
  if e.size < 0 then throw (.error .torrentInvalidLength)
  return fs.addFile e ((fh.bind stringPtr).map (· + infoPtrDiff))

def extractFileList (info : LazyEntry) (name : Bytes) (fs : FileStorage) (copy : InfoCopy) :
    Except Failure FileStorage :=
  match dictFindList buf (bytes "files") info with
  | none => singleFile buf info name fs copy.ptrDiff
  | some list => extractFiles buf list fs name copy

def extractPieces (info : LazyEntry) (numPieces infoPtrDiff : Int) : Except Failure PieceHashes := do
  let pieces := dictFind buf (bytes "pieces") info
  let rootHash := dictFind buf (bytes "root hash") info
  if !(pieces.any isString) && !(rootHash.any isString) then throw (.error .torrentMissingPieces)
  match pieces with
  | some pieces =>
    if (stringLength pieces : Int) ≠ int32 (numPieces * 20) then throw (.error .torrentInvalidHashes)
    match stringPtr pieces with
    | some pos => return .section (pos + infoPtrDiff)
    | none => return .stray
  | none =>
    match rootHash with
    | none => throw (.error .torrentMissingPieces)
    | some rootHash =>
      if stringLength rootHash ≠ 20 then throw (.error .torrentInvalidHashes)
      match (stringValue buf rootHash).bind (Merkle.parseRootHash (List.replicate 20 0) numPieces.toNat) with
      | some tree => return .merkle tree
      | none => throw .unfinished

/-- `parse_info_section(info, ec, flags)`. Pointers into the copy of the info section are positions in it. -/
def parseInfoSection (sha1 : Bytes → Bytes) (heap : Int → UInt8) (buf : Bytes) (info : LazyEntry) :
    Except Failure TorrentInfo := do
  match info with
  | .dict .. => pure ()
  | _ => throw (.error .torrentInfoNoDict)
  let (sectionStart, sectionLen) := info.dataSection
  let infoHash := sha1 (slice buf sectionStart sectionLen)
  let copy := copyInfoSection heap buf sectionStart sectionLen
  let pieceLength := int32 (dictFindIntValue buf (bytes "piece length") (-1) info)
  if pieceLength ≤ 0 then throw (.error .torrentMissingPieceLength)
  let fs := { FileStorage.empty with pieceLength := pieceLength }
  let name ← extractName buf info infoHash
  let fs ← extractFileList buf info name fs copy
  let numPieces := int32 ((int64 (int64 (fs.totalSize + pieceLength) - 1)).tdiv pieceLength)
  let fs := { fs with name := name, numPieces := numPieces }
  let pieces ← extractPieces buf info numPieces copy.ptrDiff
  let multifile := (dictFindList buf (bytes "files") info).isSome
  return ⟨infoHash, fs, multifile, pieces, dictFindIntValue buf (bytes "private") 0 info ≠ 0⟩

end Libtorrent.Metainfo
