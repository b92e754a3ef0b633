import CloudTemplate.Text.Utf8
/-! Files by their paths, and what a path says about its file. The parts of a path stand between slashes;
empty parts and single points say nothing, and two points lead back to the folder above. -/
namespace CloudTemplate

namespace Path

def isSeparator (c : Char) : Bool := c == '/'

def split : List Char → List (List Char)
  | [] => [[]]
  | c :: cs =>
    if isSeparator c then [] :: split cs
    else
      match split cs with
      | [] => [[c]]
      | part :: parts => (c :: part) :: parts

def parts (path : String) : List String :=
  ((split path.toList).map String.ofList).filter fun part => part != "" && part != "."

def endsInFolder (path : String) : Bool :=
  match (split path.toList).getLast? with
  | some last => last == [] || last == ['.']
  | none => false

def isName (part : String) : Bool :=
  part != ".." && part.utf8ByteSize ≤ 255 && !part.toList.contains '\x00'

def step (folder : List String) (part : String) : List String :=
  if part = ".." then folder.dropLast else folder ++ [part]

def join (base path : String) : String :=
  if "/".toList.isPrefixOf path.toList then path
  else if base = "" || "/".toList.isSuffixOf base.toList then base ++ path
  else base ++ "/" ++ path

def fileName? (path : String) : Option String := (parts path).getLast?.filter fun part => part != ".."

def extension? (path : String) : Option String :=
  (fileName? path).bind fun name =>
    let backward := name.toList.reverse
    let ending := backward.takeWhile (· != '.')
    match backward.drop ending.length with
    | _ :: _ :: _ => some (String.ofList ending.reverse)
    | _ => none

def kind? (path : String) : Option String :=
  (extension? path).map fun ending => String.ofList (ending.toList.map Char.toLower)

end Path

inductive FileEntry where
  | folder
  | file (content : List UInt8)
  deriving DecidableEq, Repr

/-- Folders and files with their contents, by the names that lead to them from the top. -/
abbrev Files := List (List String × FileEntry)

namespace Files

def empty : Files := []

def at? (files : Files) (names : List String) : Option FileEntry :=
  if names = [] then some .folder else (files.find? fun e => e.1 == names).map Prod.snd

def resolve (files : Files) (folder : List String) : List String → Option (List String)
  | [] => some folder
  | part :: parts =>
    match files.at? folder with
    | some .folder => resolve files (Path.step folder part) parts
    | _ => none

def locate? (files : Files) (path : String) : Option (List String × FileEntry) :=
  (files.resolve [] (Path.parts path)).bind fun names =>
    match files.at? names with
    | some (.file content) => if Path.endsInFolder path then none else some (names, .file content)
    | entry => entry.map fun entry => (names, entry)

def find? (files : Files) (path : String) : Option FileEntry := (files.locate? path).map Prod.snd

def put (files : Files) (names : List String) (entry : FileEntry) : Files :=
  (names, entry) :: files.filter fun e => e.1 != names

/-- The names that parts lead to from a folder through folders only. A folder is made where nothing is
found, part by part, and the way ends at a file. -/
def enter (files : Files) (folder : List String) : List String → Files × Option (List String)
  | [] => (files, some folder)
  | part :: parts =>
    let next := Path.step folder part
    match files.at? next with
    | some .folder => enter files next parts
    | some (.file _) => (files, none)
    | none => if Path.isName part then enter (files.put next .folder) next parts else (files, none)

def putFile (files : Files) (names : List String) (content : List UInt8) : Files :=
  match files.at? names with
  | some .folder => files
  | _ => files.put names (.file content)

/-- Writes a file, and makes the folders above it. The folders stay also when the file cannot be
written: below a file, over a folder, or by a path that can lead only to a folder. -/
def write (files : Files) (path : String) (content : List UInt8) : Files :=
  let parts := Path.parts path
  match files.enter [] parts.dropLast, parts.getLast? with
  | (files, some folder), some name =>
    if Path.isName name && !Path.endsInFolder path then files.putFile (folder ++ [name]) content else files
  | (files, _), _ => files

def remove (files : Files) (path : String) : Files :=
  match files.locate? path with
  | some (names, .file _) => files.filter fun e => e.1 != names
  | _ => files

def text? (files : Files) (path : String) : Option String :=
  match files.find? path with
  | some (.file content) => (Text.readUtf8 content).toOption.map String.ofList
  | _ => none

end Files

end CloudTemplate
