import SplBasic.Text.Line

/-!
# File systems

A model of the files that a command can read and write: contents by path, seen from a working
directory. The directories are those that are listed as such, with or without files in them, those
that the paths of files and directories pass through, the working directory, whatever lies above it,
and the few that every system has. At any path reading, writing and searching can be denied.

A path text is followed name by name, and every name but the last has to lead to a directory:

* empty names, as between two slashes, do not count,
* `.` stays where it is and `..` goes up, both from a directory only,
* a slash at the end asks for a directory,
* whatever is looked for in a directory, the directory has to be open to searching,
* a name has at most 255 bytes, and a path text at most 4095.
-/

namespace SplBasic.CommandLine

/-- Why a file cannot be read or written. -/
inductive FileFault
  | notFound
  | notDirectory
  | isDirectory
  | nameTooLong
  | denied
  | invalidText
  | other (reason : String)
  deriving DecidableEq, Repr

namespace FileFault

def reason : FileFault → String
  | notFound => "No such file or directory (os error 2)"
  | notDirectory => "Not a directory (os error 20)"
  | isDirectory => "Is a directory (os error 21)"
  | nameTooLong => "File name too long (os error 36)"
  | denied => "Permission denied (os error 13)"
  | invalidText => "stream did not contain valid UTF-8"
  | other reason => reason

end FileFault

/-! ## Paths -/

/-- The names on the way from the working directory to a file. The first name is `/` if the way
starts at the root, and `..` if it leads out of the working directory. -/
abbrev Path := List String

namespace Path

def root : Path :=
  ["/"]

/-- The file that reads as empty and keeps nothing. -/
def nullDevice : Path :=
  ["/", "dev", "null"]

/-- The path one level up; the root has nothing above it. -/
def parent (path : Path) : Path :=
  match path.getLast? with
  | none => [".."]
  | some ".." => path ++ [".."]
  | some "/" => path
  | some _ => path.dropLast

/-- The path that a name leads to from a directory. -/
def step (directory : Path) (name : String) : Path :=
  if name = "." then directory
  else if name = ".." then parent directory
  else directory ++ [name]

/-- The names in a path text. -/
def names (text : String) : List String :=
  ((Text.pieces '/' text.toList).map String.ofList).filter (· ≠ "")

/-- Where the names in a path text start from. -/
def origin (text : String) : Path :=
  if text.toList.head? = some '/' then root else []

/-- The path that a path text spells, whatever is there. -/
def ofText (text : String) : Path :=
  (names text).foldl step (origin text)

/-- Whether a path text asks for a directory, because it ends in a slash. -/
def asksDirectory (text : String) : Bool :=
  text.toList.getLast? == some '/'

end Path

/-- The most bytes that a name can have. -/
def maxNameBytes : Nat :=
  255

/-- The most bytes that a path text can have. -/
def maxPathBytes : Nat :=
  4095

/-! ## Files -/

/-- What can be denied at a path. -/
inductive Permission
  /-- Reading the file or the directory. -/
  | read
  /-- Writing the file, or making a new file in the directory. -/
  | write
  /-- Looking for anything in the directory. -/
  | search
  deriving DecidableEq, Repr

/-- File contents by path, the directories that are there without any file in them, and what is
denied where. -/
structure FileSystem where
  files : List (Path × ByteArray)
  directories : List Path
  denials : List (Path × Permission)

namespace FileSystem

def empty : FileSystem :=
  ⟨[], [], []⟩

def allows (fs : FileSystem) (path : Path) (permission : Permission) : Bool :=
  !fs.denials.contains (path, permission)

/-- The file system with `contents` at a path, in place of what was there. -/
def put (fs : FileSystem) (path : Path) (contents : ByteArray) : FileSystem :=
  if path = Path.nullDevice then fs
  else { fs with files := (path, contents) :: fs.files.filter fun (p, _) => p ≠ path }

/-- The file system that comes from writing files one after the other. -/
def ofFiles (files : List (String × ByteArray)) : FileSystem :=
  files.foldl (fun fs (text, contents) => fs.put (Path.ofText text) contents) empty

def file? (fs : FileSystem) (path : Path) : Option ByteArray :=
  if path = Path.nullDevice then some .empty else fs.files.lookup path

def isDirectory (fs : FileSystem) (path : Path) : Bool :=
  path.all (· == "..") || path == Path.root || path == ["/", "dev"] || path == ["/", "tmp"]
    || fs.directories.any path.isPrefixOf
    || fs.files.any fun (p, _) => path.isPrefixOf p && path.length < p.length

/-- Why nothing is found under a name. -/
def absence (name : String) : FileFault :=
  if maxNameBytes < name.utf8ByteSize then .nameTooLong else .notFound

/-- Goes from one directory to the directory that a name leads to. -/
def enter (fs : FileSystem) (directory : Path) (name : String) : Except FileFault Path :=
  let place := Path.step directory name
  if !fs.allows directory .search then .error .denied
  else if fs.isDirectory place then .ok place
  else if (fs.file? place).isSome then .error .notDirectory
  else .error (absence name)

/-- The directory that a path text leads to, and the last name in it. -/
structure Target where
  directory : Path
  name : String
  deriving DecidableEq, Repr

namespace Target

def path (target : Target) : Path :=
  Path.step target.directory target.name

end Target

/-- The target of a path text. A text without names stands for the root. -/
def target (fs : FileSystem) (text : String) : Except FileFault Target :=
  if text = "" then .error .notFound
  else if maxPathBytes < text.utf8ByteSize then .error .nameTooLong
  else do
    let names := Path.names text
    let directory ← names.dropLast.foldlM fs.enter (Path.origin text)
    if fs.allows directory .search then return ⟨directory, names.getLastD "."⟩
    else .error .denied

def read (fs : FileSystem) (text : String) : Except FileFault String := do
  let target ← fs.target text
  match fs.file? target.path with
  | some bytes =>
    if Path.asksDirectory text then .error .notDirectory
    else if !fs.allows target.path .read then .error .denied
    else
      match String.fromUTF8? bytes with
      | some contents => .ok contents
      | none => .error .invalidText
  | none =>
    if !fs.isDirectory target.path then .error (absence target.name)
    else .error (if fs.allows target.path .read then .isDirectory else .denied)

/-- Whether a file may be written: an old one by itself, a new one by its directory. -/
def mayWrite (fs : FileSystem) (target : Target) : Bool :=
  fs.allows (if (fs.file? target.path).isSome then target.path else target.directory) .write

/-- The file system with `contents` written to a file. -/
def write (fs : FileSystem) (text contents : String) : Except FileFault FileSystem := do
  let target ← fs.target text
  if Path.asksDirectory text || fs.isDirectory target.path then .error .isDirectory
  else if maxNameBytes < target.name.utf8ByteSize then .error .nameTooLong
  else if !fs.mayWrite target then .error .denied
  else return fs.put target.path contents.toUTF8

end FileSystem

end SplBasic.CommandLine
