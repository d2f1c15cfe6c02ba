import AudLang.Machine.Folders

/-!
Members of values: attributes and methods of all kinds.
-/

namespace AudLang.Run

/-- The element of a list with an index, counted from zero. -/
def getElement (elements : List Ref) (args : List Ref) (p : Position) : Run Ref := do
  match args with
  | [a] =>
    match ← value a with
    | .int i =>
      match if 0 ≤ i then elements[i.toNat]? else none with
      | some r => return r
      | none => do
        let _ ← ask (Datum.int i).toText
        fail (.outOfBounds i elements.length) p
    | _ => fail .badIndex p
  | _ => fail .badIndex p

/-- Calls a method of a list. -/
def callList (v : Value) (elements : List Ref) (name : String) (args : List Ref) (p : Position) :
    Run Ref := do
  match name with
  | "get" => getElement elements args p
  | "len" => if args.isEmpty then alloc (.int elements.length) else fail .lengthArguments p
  | _ => fail (.noMethod v.typeName name) p

/-- Calls a method of a value. -/
def callMethod (r : Ref) (name : String) (args : List Ref) (p : Position) : Run Ref := do
  match ← value r with
  | v@(.list _ elements) => callList v elements name args p
  | v@(.file f) => callFile r v f name args p
  | .audio f a => callAudio r f a name args p
  | .folder d => callFolder r d name args p
  | v => fail (.noMethod v.typeName name) p

/-- The value of an attribute of a value. -/
def getAttribute (r : Ref) (name : String) (p : Position) : Run Ref := do
  match ← value r with
  | v@(.file f) => fileAttribute v f name p
  | .audio f a => audioAttribute f a name p
  | .folder d => folderAttribute r d name p
  | v => fail (.noAttribute v.typeName name) p

/-- Assigns to an attribute, which no value allows. -/
def setAttribute (r : Ref) (name : String) (p : Position) : Run Unit := do
  fail (.readOnly name (← value r).typeName) p

/-- A copy of a value.  Simple values and lists get a cell of their own; the elements of a list are
shared; all else is the same value. -/
def clone (r : Ref) : Run Ref := do
  match ← value r with
  | v@(.int _) | v@(.float _) | v@(.string _) | v@(.bool _) | v@(.list ..) => alloc v
  | _ => return r

end AudLang.Run
