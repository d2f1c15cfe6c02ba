import AudLang.Typing.Table

/-!
The functions, properties and methods that come with the language.

Audio is a file: it has the properties and methods of files besides its own.
-/

namespace AudLang

/-- The functions that come with the language. -/
def Functions.builtin : Functions where
  entries :=
    [("print", ⟨[.string], .void⟩),
     ("input", ⟨[], .string⟩),
     ("stoi", ⟨[.string], .int⟩),
     ("itos", ⟨[.int], .string⟩),
     ("stof", ⟨[.string], .float⟩),
     ("ftos", ⟨[.float], .string⟩),
     ("itof", ⟨[.int], .float⟩),
     ("ftoi", ⟨[.float], .int⟩),
     ("btos", ⟨[.bool], .string⟩),
     ("atof", ⟨[.audio], .file⟩),
     ("ftoa", ⟨[.file], .audio⟩)]

/-- The functions besides those that come with the language. -/
def Functions.defined (f : Functions) : List (String × Signature) :=
  f.entries.filter fun (name, _) => (builtin.get? name).isNone

namespace Ty

/-- The type of a property of files. -/
def fileProperty? : String → Option Ty
  | "filename" => some string
  | "parent" => some folder
  | _ => none

/-- The type of a property of folders. -/
def folderProperty? : String → Option Ty
  | "is_root" => some bool
  | "name" => some string
  | "files" => some (list file)
  | "subfolders" => some (list folder)
  | _ => none

/-- The type of a property that audio has beyond those of files. -/
def audioProperty? : String → Option Ty
  | "length" => some int
  | "bitrate" => some int
  | "title" => some string
  | _ => none

/-- The type of a property. -/
def property? (t : Ty) (name : String) : Option Ty :=
  match t.base? with
  | some .file => fileProperty? name
  | some .folder => folderProperty? name
  | some .audio => audioProperty? name <|> fileProperty? name
  | _ => none

/-- The signature of a method of lists of `element`. -/
def listMethod? (element : Ty) : String → Option Signature
  | "get" => some ⟨[int], element⟩
  | "len" => some ⟨[], int⟩
  | _ => none

/-- The signature of a method of files. -/
def fileMethod? : String → Option Signature
  | "get_filename" => some ⟨[], string⟩
  | "change_filename" => some ⟨[string], void⟩
  | "move" => some ⟨[folder], void⟩
  | "delete" => some ⟨[], void⟩
  | _ => none

/-- The signature of a method of folders. -/
def folderMethod? : String → Option Signature
  | "get_file" => some ⟨[string], file⟩
  | "add_file" => some ⟨[file], void⟩
  | "remove_file" => some ⟨[string], void⟩
  | "list_files" => some ⟨[], list file⟩
  | "list_subfolders" => some ⟨[], list folder⟩
  | "list_audio" => some ⟨[], list audio⟩
  | "get_subfolder" => some ⟨[string], folder⟩
  | "get_name" => some ⟨[], string⟩
  | _ => none

/-- The signature of a method that audio has beyond those of files. -/
def audioMethod? : String → Option Signature
  | "cut" => some ⟨[int, int], void⟩
  | "concat" => some ⟨[audio], void⟩
  | "change_title" => some ⟨[string], void⟩
  | "change_format" => some ⟨[string], void⟩
  | "change_volume" => some ⟨[float], void⟩
  | _ => none

/-- The signature of a method. -/
def method? (t : Ty) (name : String) : Option Signature :=
  match t.base? with
  | some .list => listMethod? t.element name
  | some .file => fileMethod? name
  | some .folder => folderMethod? name
  | some .audio => audioMethod? name <|> fileMethod? name
  | _ => none

end Ty

end AudLang
