import EqSat.Text.Quoted

/-!
# Files by path

A path is a list of names, read from text with empty names and `.` left out; `..` is kept,
for it means the parent of a directory only where the directory exists.  A file set gives
the text of every file there is.  Names and paths are of limited length, and no name holds a
null character.
-/

namespace EqSat

/-- A path; `anchor` holds the leading slashes of an absolute one. -/
structure Path where
  anchor : String
  names : List String
deriving DecidableEq, Repr

namespace Path

def current : Path := ⟨"", []⟩

def isAbsolute (p : Path) : Bool := !p.anchor.isEmpty

/-- The names between slashes. -/
def namesOf (cs : List Char) : List String :=
  ((cs.splitOn '/').map String.ofList).filter fun name => name != "" && name != "."

/-- Read a path.  Two leading slashes are an anchor of their own; three are as good as one. -/
def ofString (s : String) : Path :=
  match s.toList with
  | '/' :: '/' :: '/' :: cs => ⟨"/", namesOf cs⟩
  | '/' :: '/' :: cs => ⟨"//", namesOf cs⟩
  | '/' :: cs => ⟨"/", namesOf cs⟩
  | cs => ⟨"", namesOf cs⟩

def text (p : Path) : String :=
  let names := "/".intercalate p.names
  if p.anchor.isEmpty && names.isEmpty then "." else p.anchor ++ names

instance : ToString Path := ⟨text⟩

/-- A path taken from the directory `base`; an absolute path stays as it is. -/
def join (base p : Path) : Path :=
  if p.isAbsolute then p else ⟨base.anchor, base.names ++ p.names⟩

/-- The directory of a path. -/
def parent (p : Path) : Path := ⟨p.anchor, p.names.dropLast⟩

/-- No name holds a null character, which ends the name of a file. -/
def isUsable (p : Path) : Bool := p.names.all fun name => !name.toList.contains '\x00'

end Path

/-- Where a path leads when every `..` steps back: `above` levels up from the current
directory, then down the names. -/
structure Location where
  anchor : String
  above : Nat
  names : List String
deriving DecidableEq, Repr

namespace Location

def start (p : Path) : Location := ⟨p.anchor, 0, []⟩

def step (l : Location) (name : String) : Location :=
  if name = ".." then
    if l.names.isEmpty then
      if l.anchor.isEmpty then { l with above := l.above + 1 } else l
    else { l with names := l.names.dropLast }
  else { l with names := l.names ++ [name] }

end Location

def Path.resolve (p : Path) : Location := p.names.foldl Location.step (Location.start p)

/-- A relative path leads on from where the directory leads. -/
theorem Path.resolve_join (base : Path) {p : Path} (h : p.isAbsolute = false) :
    (base.join p).resolve = p.names.foldl Location.step base.resolve := by
  unfold join resolve
  rw [h]
  exact List.foldl_append

/-- Why a file cannot be read. -/
inductive FileError where
  | notFound (path : String)
  | notDirectory (path : String)
  | isDirectory (path : String)
  | tooLong (path : String)
  | unusable
deriving DecidableEq, Repr

def FileError.message : FileError → String
  | notFound path => "[Errno 2] No such file or directory: " ++ Text.quoted path
  | notDirectory path => "[Errno 20] Not a directory: " ++ Text.quoted path
  | isDirectory path => "[Errno 21] Is a directory: " ++ Text.quoted path
  | tooLong path => "[Errno 36] File name too long: " ++ Text.quoted path
  | unusable => "embedded null byte"

/-- Line ends of every kind as newlines. -/
def unifyLineEnds : List Char → List Char
  | '\r' :: '\n' :: cs => '\n' :: unifyLineEnds cs
  | '\r' :: cs => '\n' :: unifyLineEnds cs
  | c :: cs => c :: unifyLineEnds cs
  | [] => []

/-- The files there are, by their locations. -/
structure FileSet where
  files : List (Location × String)

namespace FileSet

def empty : FileSet := ⟨[]⟩

def add (fs : FileSet) (p : Path) (text : String) : FileSet := ⟨(p.resolve, text) :: fs.files⟩

/-- The file set of path texts and contents. -/
def ofList (files : List (String × String)) : FileSet :=
  ⟨files.map fun (path, text) => ((Path.ofString path).resolve, text)⟩

/-- The number of files. -/
def size (fs : FileSet) : Nat := fs.files.length

def file? (fs : FileSet) (l : Location) : Option String := fs.files.lookup l

/-- The current directory, the directories above it, roots, and those that hold files. -/
def isDirectory (fs : FileSet) (l : Location) : Bool :=
  l.names.isEmpty || fs.files.any fun (m, _) =>
    m.anchor == l.anchor && m.above == l.above && l.names.isPrefixOf m.names && l.names != m.names

/-- The largest numbers of bytes in a name and in a path. -/
def nameLimit : Nat := 255

def pathLimit : Nat := 4095

/-- Walk along the names; each of them is looked up in a directory that must exist. -/
def walk (fs : FileSet) (path : String) : Location → List String → Except FileError Location
  | l, [] => .ok l
  | l, name :: names =>
    if fs.isDirectory l then
      if nameLimit < name.utf8ByteSize then .error (.tooLong path)
      else fs.walk path (l.step name) names
    else if (fs.file? l).isSome then .error (.notDirectory path)
    else .error (.notFound path)

/-- Where a path leads if all directories on the way exist. -/
def locate (fs : FileSet) (p : Path) : Except FileError Location :=
  if !p.isUsable then .error .unusable
  else if pathLimit < p.text.utf8ByteSize then .error (.tooLong p.text)
  else fs.walk p.text (Location.start p) p.names

/-- The text of the file at a path, with its line ends unified. -/
def read (fs : FileSet) (p : Path) : Except FileError String := do
  let l ← fs.locate p
  match fs.file? l with
  | some text => .ok (String.ofList (unifyLineEnds text.toList))
  | none => .error (if fs.isDirectory l then .isDirectory p.text else .notFound p.text)

/-- Tells whether there is a file or a directory at the path, if names can be that long. -/
def contains (fs : FileSet) (p : Path) : Except FileError Bool :=
  match fs.locate p with
  | .ok l => .ok ((fs.file? l).isSome || fs.isDirectory l)
  | .error (.notFound _) => .ok false
  | .error (.notDirectory _) => .ok false
  | .error e => .error e

/-- A path with a null character leads nowhere, whatever files there are. -/
theorem locate_of_not_isUsable (fs : FileSet) {p : Path} (h : p.isUsable = false) :
    fs.locate p = .error .unusable := by
  rw [locate, h]
  rfl

end FileSet

end EqSat
