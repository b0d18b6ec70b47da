/-!
# Reading files

Why a file cannot be read, and a folder of files that is held in memory and
read by paths as a disk is.
-/

namespace ImplicitDynamics.CommandLine

inductive FileFault where
  | missing
  | denied
  | notFolder
  | isFolder
  | nameTooLong
  | notText
  | other (words : String)
  deriving Repr, DecidableEq

/-- The words of the system for a fault. -/
def FileFault.message : FileFault → String
  | missing => "No such file or directory (os error 2)"
  | denied => "Permission denied (os error 13)"
  | notFolder => "Not a directory (os error 20)"
  | isFolder => "Is a directory (os error 21)"
  | nameTooLong => "File name too long (os error 36)"
  | notText => "stream did not contain valid UTF-8"
  | other words => words

/-- Texts by path, a path being the names on the way to a file. -/
structure Folder where
  files : List (List String × String)

namespace Folder

/-- A folder of texts by name; slashes in a name lead into folders below. -/
def ofList (files : List (String × String)) : Folder :=
  ⟨files.map fun (name, text) => (name.splitOn "/", text)⟩

def text? (folder : Folder) (path : List String) : Option String :=
  (folder.files.find? fun (name, _) => name = path).map Prod.snd

/-- Some file lies below a path. -/
def leadsOn (folder : Folder) (path : List String) : Bool :=
  folder.files.any fun (name, _) => path.isPrefixOf name

def nameLimit : Nat := 255

/-- Follows names from a path that leads to a folder.  Nothing is known of what
lies above the whole folder. -/
def follow (folder : Folder) (path : List String) : List String → Except FileFault String
  | [] => .error .isFolder
  | name :: rest =>
    if name = "" || name = "." then follow folder path rest
    else if name = ".." then
      if path.isEmpty then follow ⟨[]⟩ [] rest else follow folder path.dropLast rest
    else if nameLimit < name.utf8ByteSize then .error .nameTooLong
    else
      let next := path ++ [name]
      match folder.text? next with
      | some text => if rest.isEmpty then .ok text else .error .notFolder
      | none => if folder.leadsOn next then follow folder next rest else .error .missing

def read (folder : Folder) (path : String) : Except FileFault String :=
  if path.isEmpty then .error .missing else folder.follow [] (path.splitOn "/")

end Folder

end ImplicitDynamics.CommandLine
