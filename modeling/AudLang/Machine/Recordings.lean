import AudLang.Audio.Wave
import AudLang.Machine.Files
import AudLang.Text.Digit
import AudLang.Text.Lowercase

/-!
Audio as values.

An audio value is a file together with what was read from it once: its length, bitrate and title.
Every method reads the sound from the file anew before it looks at what it is asked for, and writes
the file anew in the format of its extension.
-/

namespace AudLang.Run

/-! ## Loading -/

/-- Why the sound in a file cannot be loaded. -/
inductive LoadFailure where
  /-- Bare samples say nothing of their width. -/
  | noWidth
  /-- Reading another format needs a program that is not there. -/
  | noProgram
deriving DecidableEq, Repr

/-- What is said about a failure to load. -/
def LoadFailure.message : LoadFailure → String
  | noWidth => "'sample_width'"
  | noProgram => Refusal.noEntry.report "ffprobe"

/-- The fault that a failure to load is where nobody expects it. -/
def LoadFailure.fault : LoadFailure → Fault
  | noWidth => .noEntry
  | noProgram => .noFile

/-- Loads the sound in a file, going by the extension of its path. -/
def load (path : String) : Run (Except LoadFailure Segment) := do
  let low := Text.lower path
  if low.endsWith ".wav" then
    match (← files).read path with
    | .ok b =>
      match Wave.decode b with
      | some s => return .ok s
      | none => return .error .noProgram
    | .error e => fault e.fault
  else if low.endsWith ".raw" || low.endsWith ".pcm" then return .error .noWidth
  else return .error .noProgram

/-- A new value for the audio file at a path. -/
def openAudio (path : String) (parent : Option Ref) (p : Position) : Run Ref := do
  let f ← findFile path parent p
  match ← load f.path with
  | .error e => fail (.loadFailed f.name e.message) p
  | .ok s =>
    match s.milliseconds with
    | .error _ => fail (.loadFailed f.name "integer division or modulo by zero") p
    | .ok length =>
      let title := (Path.splitExtension f.name).1
      alloc (.audio f { length, bitrate := s.bitrate, title := .text title })

/-! ## Methods -/

/-- Changes what is known of the sound in a file. -/
def updateRecording (r : Ref) (change : Recording → Recording) : Run Unit := do
  match ← value r with
  | .audio f a => put r (.audio f (change a))
  | _ => return ()

/-- Writes a segment to a path in a format.  The file is there, if only in part, even when the
segment cannot be written. -/
def save (s : Segment) (path format : String) : Run Unit := do
  let written := Wave.writeAs s format
  match (← files).write path written.bytes with
  | .error e => fault e.fault
  | .ok fs => do
    setFiles fs
    if let some f := written.fault then fault f

/-- The format that the extension of a path names. -/
def formatOf (path : String) : String := String.ofList ((Path.splitExtension path).2.toList.drop 1)

/-- Writes a segment over a file and notes its length. -/
def overwrite (r : Ref) (f : FileObject) (s : Segment) : Run Ref := do
  save s f.path (formatOf f.path)
  let length ← ask s.milliseconds
  updateRecording r fun a => { a with length }
  nothing

/-- Do the times lie in order within a length? -/
def inRange (start stop : Datum) (length : Int) : Except Fault Bool := do
  if !(← Datum.atMost (.int 0) start) then return false
  else if !(← start.atMost stop) then return false
  else stop.atMost (.int length)

/-- Leaves only the part between two times in milliseconds. -/
def cut (r : Ref) (f : FileObject) (a : Recording) (s : Segment) (args : List Ref) (p : Position) :
    Run Ref := do
  let start ← contentOf args 0
  let stop ← contentOf args 1
  if ← ask (inRange start stop a.length) then
    overwrite r f (← ask (s.slice (← ask start.toFloat) (← ask stop.toFloat)))
  else
    let first ← ask start.toText
    let last ← ask stop.toText
    fail (.cutRange first last a.length) p

/-- Appends the sound of another file. -/
def concat (r : Ref) (f : FileObject) (s : Segment) (args : List Ref) (p : Position) : Run Ref := do
  let other ← usableFile (← argument args 0) "concat" p
  match ← load other.path with
  | .error e => fault e.fault
  | .ok t => overwrite r f (← ask (s.append t))

/-- Changes the title, which the file itself does not keep. -/
def changeTitle (r : Ref) (f : FileObject) (s : Segment) (args : List Ref) : Run Ref := do
  let title ← contentOf args 0
  updateRecording r fun a => { a with title }
  save s f.path (formatOf f.path)
  nothing

/-- Writes the sound in another format beside the file, which is then removed. -/
def changeFormat (r : Ref) (f : FileObject) (s : Segment) (args : List Ref) (p : Position) :
    Run Ref := do
  match ← contentOf args 0 with
  | .text t => do
    let format := Text.lower t
    if format.isEmpty || !format.toList.all Text.isAlphanumeric || 5 < format.length then
      fail (.badFormat format) p
    let path := (Path.splitExtension f.path).1 ++ "." ++ format
    save s path format
    match (← files).remove f.path with
    | .error e => fault e.fault
    | .ok fs => do
      setFiles fs
      updateFile r fun f => { f with path, name := Path.base path }
      nothing
  | _ => fault .noMember

/-- Makes the sound louder by some decibels. -/
def changeVolume (f : FileObject) (s : Segment) (args : List Ref) : Run Ref := do
  let db ← ask (← contentOf args 0).toFloat
  save (← ask (s.gain db)) f.path (formatOf f.path)
  nothing

/-- Calls a method of an audio value. -/
def callAudio (r : Ref) (f : FileObject) (a : Recording) (name : String) (args : List Ref)
    (p : Position) : Run Ref := do
  checkFile f name p
  match ← load f.path with
  | .error .noProgram => fail (.dataFailed f.name LoadFailure.noProgram.message) p
  | .error e => fault e.fault
  | .ok s =>
    match name with
    | "cut" => cut r f a s args p
    | "concat" => concat r f s args p
    | "change_title" => changeTitle r f s args
    | "change_format" => changeFormat r f s args p
    | "change_volume" => changeVolume f s args
    | _ => callFile r (.audio f a) f name args p

/-- The value of an attribute of an audio value. -/
def audioAttribute (f : FileObject) (a : Recording) (name : String) (p : Position) : Run Ref := do
  checkFile f s!"accessing attribute '{name}'" p
  match name with
  | "length" => alloc (.int a.length)
  | "bitrate" => alloc (.int a.bitrate)
  | "title" => alloc (.string a.title)
  | _ => fileAttribute (.audio f a) f name p

end AudLang.Run
