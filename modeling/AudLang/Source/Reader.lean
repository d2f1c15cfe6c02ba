import AudLang.Source

/-!
Reading a source text from a stream.

A stream gives its characters one at a time and only once.  A reader that looks ahead keeps the
characters it has taken for this until they are read, and remembers whether the stream has ended.
Line ends are folded when they are read, which takes a look at the character behind a carriage
return.
-/

set_option linter.unusedVariables false

namespace AudLang

/-- A stream that is being read. -/
structure Reader where
  /-- What the stream has not given yet. -/
  stream : List Char
  /-- The characters that were looked at and not read, the next one first. -/
  ahead : List Char
  /-- Has the stream said that it is at its end? -/
  ended : Bool
  /-- The place of the last character read. -/
  position : Position
  /-- A stream that has ended has nothing more to give. -/
  drained : ended = true → stream = []

namespace Reader

/-- A stream of which nothing has been read. -/
def ofString (s : String) : Reader :=
  ⟨s.toList, [], false, .start, fun h => absurd h Bool.false_ne_true⟩

/-- The next character of the stream, which is noted to have ended if there is none. -/
def draw : Reader → Option Char × Reader
  | ⟨[], ahead, _, p, _⟩ => (none, ⟨[], ahead, true, p, fun _ => rfl⟩)
  | ⟨c :: r, ahead, ended, p, h⟩ =>
    (some c, ⟨r, ahead, ended, p, fun he => absurd (h he) (List.cons_ne_nil c r)⟩)

/-- Drawing a character leaves fewer of them in the stream. -/
theorem length_draw {r t : Reader} {c : Char} (h : r.draw = (some c, t)) :
    t.stream.length < r.stream.length := by
  unfold draw at h
  split at h
  · cases h
  · cases h
    exact Nat.lt_succ_self _

/-- Looks at characters until there are `k` ahead or the stream ends. -/
def fill (k : Nat) (r : Reader) : Reader :=
  if r.ahead.length < k ∧ r.ended = false then
    match h : r.draw with
    | (none, t) => t
    | (some c, t) => fill k { t with ahead := t.ahead ++ [c] }
  else r
termination_by r.stream.length
decreasing_by exact length_draw h

/-- The `k`-th character that has not been read, as the stream gives it, counted from one. -/
def peek (k : Int) (r : Reader) : Option Char × Reader :=
  if k ≤ 0 then (none, r)
  else
    let t := r.fill k.toNat
    (t.ahead[(k - 1).toNat]?, t)

/-- Takes the next character as the stream gives it. -/
def advance (r : Reader) : Option Char × Reader :=
  match r.ahead with
  | c :: more => (some c, { r with ahead := more })
  | [] => if r.ended then (none, r) else r.draw

/-- A character that has been read moves the place on. -/
def moved (c : Char) (r : Reader) : Option Char × Reader :=
  (some c, { r with position := r.position.after c })

/-- The next character with its line end folded. -/
def read (r : Reader) : Option Char × Reader :=
  match r.advance with
  | (none, t) => (none, t)
  | (some '\r', t) =>
    match t.peek 1 with
    | (some '\n', u) => u.advance.2.moved '\n'
    | (_, u) => u.moved '\n'
  | (some c, t) => t.moved c

/-- What a reader may be asked for. -/
inductive Request where
  | read
  | peek (k : Int)
deriving DecidableEq, Repr

/-- Does what is asked for. -/
def serve (r : Reader) : Request → Option Char × Reader
  | .read => r.read
  | .peek k => r.peek k

/-- Serves requests in turn: what is answered to each of them, and the place behind it. -/
def answers (r : Reader) : List Request → List (Option Char × Position)
  | [] => []
  | q :: qs =>
    let (c?, t) := r.serve q
    (c?, t.position) :: t.answers qs

end Reader

end AudLang
