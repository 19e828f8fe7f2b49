/-!
Files as commands see them. A file is looked at before it is read, and either can fail. A folder
is a place that holds files and further folders; a path leads through them part by part.
-/

namespace Offside.Command

/-- An error of the system that files are on, with its number if it has one. -/
structure SystemError where
  text : String
  number : Option Nat
  deriving DecidableEq

namespace SystemError

def message (e : SystemError) : String :=
  match e.number with
  | some number => e.text ++ " (os error " ++ toString number ++ ")"
  | none => e.text

def noSuchFile : SystemError := ⟨"No such file or directory", some 2⟩

def notDirectory : SystemError := ⟨"Not a directory", some 20⟩

def isDirectory : SystemError := ⟨"Is a directory", some 21⟩

def nameTooLong : SystemError := ⟨"File name too long", some 36⟩

def notPermitted : SystemError := ⟨"Permission denied", some 13⟩

/-- The error of a path with a zero character in it. It has no number. -/
def invalidName : SystemError := ⟨"file name contained an unexpected NUL byte", none⟩

def known : List SystemError :=
  [noSuchFile, notDirectory, isDirectory, nameTooLong, notPermitted]

/-- Whether the error already shows when a file is looked at, and not only when it is read. -/
def preventsAccess (e : SystemError) : Bool := e = noSuchFile || e = notDirectory || e = nameTooLong

end SystemError

/-- What comes of looking at a file: nothing, or its size and what comes of reading it. -/
inductive Access where
  | denied (e : SystemError)
  | found (size : Nat) (contents : Except SystemError ByteArray)

inductive Folder.Entry where
  | file (contents : ByteArray)
  | folder

/-- A folder by what lies in it at any depth, each with the parts of its path. -/
structure Folder where
  entries : List (List String × Folder.Entry)

namespace Folder

inductive Spot where
  /-- A folder around the one that the path starts in. -/
  | around
  /-- The folder that the given parts lead to from there. -/
  | inside (parts : List String)
  | file (contents : ByteArray)

def maxName : Nat := 255

def maxPath : Nat := 4095

/-- Whether a part of a path leads to where it stands. -/
def stays (part : String) : Bool := part = "" || part = "."

/-- The folder that holds the given entries, with all folders on the way to them. -/
def ofPaths (entries : List (String × Entry)) : Folder :=
  ⟨entries.map fun (path, entry) => ((path.splitOn "/").filter (!stays ·), entry)⟩

/-- What the given parts lead to. There is a folder wherever something lies in it. -/
def find? (f : Folder) (parts : List String) : Option Spot :=
  match f.entries.lookup parts with
  | some (.file contents) => some (.file contents)
  | some .folder => some (.inside parts)
  | none => if f.entries.any (parts.isPrefixOf ·.1) then some (.inside parts) else none

def outside (parts : List String) : Spot :=
  if parts.isEmpty then .around else .inside parts.dropLast

/-- Follows one part of a path. Nothing leads on from a file. -/
def follow (f : Folder) (spot : Spot) (part : String) : Except SystemError Spot :=
  match spot with
  | .file _ => .error .notDirectory
  | .around =>
    if stays part || part = ".." then .ok .around
    else if maxName < part.utf8ByteSize then .error .nameTooLong
    else .error .noSuchFile
  | .inside parts =>
    if stays part then .ok spot
    else if part = ".." then .ok (outside parts)
    else if maxName < part.utf8ByteSize then .error .nameTooLong
    else
      match f.find? (parts ++ [part]) with
      | some found => .ok found
      | none => .error .noSuchFile

def access (f : Folder) (path : String) : Access :=
  if path.toList.contains '\x00' then .denied .invalidName
  else if maxPath < path.utf8ByteSize then .denied .nameTooLong
  else
    let start : Spot := if path.startsWith "/" then .around else .inside []
    match (path.splitOn "/").foldlM f.follow start with
    | .error e => .denied e
    | .ok (.file contents) => .found contents.size (.ok contents)
    | .ok _ => .found 0 (.error .isDirectory)

end Folder

end Offside.Command
