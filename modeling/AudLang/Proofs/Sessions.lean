import AudLang.CommandLine.Session
import AudLang.Proofs.Grammar
import AudLang.Proofs.Room
import Mathlib

/-!
What a session prints under settings.

Settings limit how long the pieces of a source may be and how deep calls may nest.  `Shows` says
what is printed for a source in each mode, from what the lexer, the parser, the outline, the checker
and the machine do with it: the limits of the source and the room for calls are two things there.  A
session reads its sources under the limits that its settings give, in every mode, and runs programs
with room for fifty calls, whatever the settings say.  It so prints what the settings ask for unless
a run is refused a call under the smaller of the two limits, and then the two runs end in different
ways.
-/

namespace AudLang

namespace CommandLine

/-! ## What is printed for a source -/

/-- The arguments name a source: what is said about it, and its text. -/
inductive Arguments.Names (a : Arguments) (files : Files) : String → String → Prop
  | file {path text : String} (hfile : given a.file = some path)
      (htext : readText files path = .ok text) :
    Names a files s!"Using source file: {path}\n" text
  | text {text : String} (hfile : given a.file = none) (htext : given a.text = some text) :
    Names a files "Using source code string.\n" text

/-- What is printed for a source in a mode, the status this leads to, and the files behind it.  The
source is read under the limits `c`, and a run has room for `room` contexts. -/
inductive Shows (fuel : Nat) (c : Limits) (room : Int) (text : String) (files : Files)
    (typed : String) : Mode → String → Nat → Files → Prop
  /-- The tokens of the source. -/
  | tokens (h : (Listing.ofSource c text).stop = none) :
    Shows fuel c room text files typed .list (Listing.ofSource c text).text 0 files
  /-- The tokens before a flaw of the source, and a report of the flaw. -/
  | flaw {e : LexError} (h : (Listing.ofSource c text).stop = some (.lexical e)) :
    Shows fuel c room text files typed .list ((Listing.ofSource c text).text ++ e.report ++ "\n") 1
      files
  /-- The tokens before a number that cannot be written down. -/
  | number {f : Fault} (h : (Listing.ofSource c text).stop = some (.fault f)) :
    Shows fuel c room text files typed .list
      ((Listing.ofSource c text).text ++ tooManyDigits ++ "\n") 1 files
  /-- Why the source is no program. -/
  | refusal {mode : Mode} {e : ParseError} (hmode : mode ≠ .list)
      (h : Program.parse c text = .error e) :
    Shows fuel c room text files typed mode (e.report ++ "\n") 1 files
  /-- The tree of the program. -/
  | outline {program : Node} (h : Program.parse c text = .ok program)
      (hf : (program.outline 0).fault = none) :
    Shows fuel c room text files typed .outline ((program.outline 0).render "| ") 0 files
  /-- The tree of the program, up to a number that cannot be written down. -/
  | stump {program : Node} {f : Fault} (h : Program.parse c text = .ok program)
    (hf : (program.outline 0).fault = some f) :
    Shows fuel c room text files typed .outline
      ((program.outline 0).render "| " ++ tooManyDigits ++ "\n") 1 files
  /-- What the checker says about the program. -/
  | check {program : Node} (h : Program.parse c text = .ok program) :
    Shows fuel c room text files typed .check (({} : Checker).check program).1 0 files
  /-- What the checker says, and then what the program prints. -/
  | run {program : Node} {ending : Ending} {m : Machine} (h : Program.parse c text = .ok program)
    (hrun : (Machine.fresh room (.text typed.toList) files).interpret fuel program = (ending, m)) :
    Shows fuel c room text files typed .run ((({} : Checker).check program).1 ++ m.output) 0 m.files

section

variable {fuel : Nat} {c : Limits} {room room' : Int} {text typed : String} {files files' : Files}
  {mode : Mode}
  {out banner : String} {status : Nat} {a : Arguments}

/-- A source is processed under the limits it is given, and run with room for fifty contexts. -/
lemma shows_process (fuel : Nat) (mode : Mode) (c : Limits) (text : String) (files : Files)
    (typed : String) :
    Shows fuel c 50 text files typed mode (process fuel mode c text files typed).1.1
      (process fuel mode c text files typed).1.2 (process fuel mode c text files typed).2 := by
  have hlist : Shows fuel c 50 text files typed .list (listTokens c text).1 (listTokens c text).2
    files := by
    unfold listTokens
    dsimp only
    split
    · exact .tokens ‹_›
    · exact .flaw ‹_›
    · exact .number ‹_›
  cases hp : Program.parse c text with
  | error e =>
    cases mode with
    | list => exact hlist
    | _ =>
      simp only [process, hp]
      exact .refusal (by decide) hp
  | ok program =>
    cases mode with
    | list => exact hlist
    | outline =>
      simp only [process, hp, showOutline]
      cases hf : (program.outline 0).fault with
      | none => exact .outline hp hf
      | some f => exact .stump hp hf
    | check =>
      simp only [process, hp]
      exact .check hp
    | run =>
      simp only [process, hp]
      exact .run hp rfl

lemma processSource_of_names (h : a.Names files banner text) :
    processSource fuel a c files typed
      = ((banner ++ (process fuel a.mode c text files typed).1.1,
        (process fuel a.mode c text files typed).1.2),
        (process fuel a.mode c text files typed).2) := by
  cases h with
  | file hfile htext => simp only [processSource, hfile, htext]
  | text hfile htext => simp only [processSource, hfile, htext]

/-- What is printed is determined: the ways in which a source is shown exclude each other. -/
lemma Shows.iff (h : Shows fuel c room text files typed mode out status files') (o : String)
    (s : Nat) (f : Files) :
    Shows fuel c room text files typed mode o s f ↔ o = out ∧ s = status ∧ f = files' := by
  constructor
  · intro h'
    cases h <;> cases h' <;> simp_all
  · rintro ⟨rfl, rfl, rfl⟩
    exact h

/-- The room for calls matters to runs only, and there only to what it refuses. -/
lemma Shows.of_not_refusesCall (h : Shows fuel c room text files typed mode out status files')
    (hr : mode = .run → ∀ program, Program.parse c text = .ok program →
      room = room' ∨ ¬ (Machine.fresh (min room room') (.text typed.toList) files).RefusesCall fuel
        program) :
    Shows fuel c room' text files typed mode out status files' := by
  cases h with
  | tokens h => exact .tokens h
  | flaw h => exact .flaw h
  | number h => exact .number h
  | refusal hmode h => exact .refusal hmode h
  | outline h hf => exact .outline h hf
  | stump h hf => exact .stump h hf
  | check h => exact .check h
  | @run program ending m h hrun =>
    rcases hr rfl program h with rfl | hroom
    · exact .run h hrun
    · have hsame := Machine.interpret_fresh hroom
      rw [hrun] at hsame
      exact Shows.run (m := m.withRoom room') h hsame

end

/-! ## Sessions under settings -/

end CommandLine

/-- The room for calls that the limits ask for makes a difference to a program: it is not the one
that sessions have, and under the smaller of the two the program is refused a call. -/
def Limits.Matter (c : Limits) (fuel : Nat) (typed : String) (files : Files) (program : Node) :
    Prop :=
  c.callDepth ≠ 50 ∧ (Machine.fresh (min c.callDepth 50) (.text typed.toList) files).RefusesCall
    fuel program

namespace CommandLine

/-- **Settings limit sources, and not calls.**  Under settings that can be read, a session says
which settings and which source it uses, and then prints exactly what lexing, parsing, checking and
running the source under the limits of the settings print, except that the program is run with room
for fifty contexts.  This is also what the settings ask for, in every mode and for every source,
unless their room for calls makes a difference to the run; and where it does, and only there, the
run that they ask for ends in another way. -/
theorem session_under_settings (fuel : Nat) (typed : String) {args : List String} {a : Arguments}
    {files : Files}
    {path banner text : String} {c : Limits} (hargs : Arguments.read args = .ok a)
    (hconfig : given a.config = some path) (hc : readSettings files path = some c)
    (hsource : a.Names files banner text) :
    ∃ out status files',
      session fuel args files typed = ⟨s!"Using config file: {path}\n" ++ banner ++ out, status,
        files'⟩ ∧
      (∀ o s f, Shows fuel c 50 text files typed a.mode o s f ↔ o = out ∧ s = status ∧ f = files') ∧
      ((a.mode = .run → ∀ program, Program.parse c text = .ok program →
        ¬ c.Matter fuel typed files program) →
        ∀ o s f, Shows fuel c c.callDepth text files typed a.mode o s f ↔ o = out ∧ s = status ∧
          f = files') ∧
      ∀ program, Program.parse c text = .ok program →
        (((Machine.fresh c.callDepth (.text typed.toList) files).interpret fuel program).1
            ≠ ((Machine.fresh 50 (.text typed.toList) files).interpret fuel program).1 ↔
          c.Matter fuel typed files program) := by
  have hshows := shows_process fuel a.mode c text files typed
  refine ⟨_, _, _, ?_, hshows.iff,
    fun hr => Shows.iff (hshows.of_not_refusesCall fun hmode program hp => ?_),
    fun program hp => ?_⟩
  · simp only [session, hargs, hconfig, hc, processSource_of_names hsource, String.append_assoc]
  · have hmatter := hr hmode program hp
    rw [Limits.Matter, not_and_or, not_not] at hmatter
    rwa [eq_comm, min_comm]
  · rw [Limits.Matter, ne_eq, Machine.ending_fresh_iff (Program.isProgram_ofTokens hp), not_or,
      not_not]

/-- A program that makes one call. -/
def oneCall : String := "func void f() \x7b \x7d f();"

/-- Settings with room for the module alone. -/
def noCalls : Files := ⟨⟨[(["c.json"], .file "\x7b\"max_func_depth\": 1\x7d".toUTF8.toList)]⟩, []⟩

end CommandLine

/-- The tree of the program that makes one call. -/
def Node.oneCall : Node :=
  .program (.columns 1 22) [0]
    [.define (.columns 1 17) (.type (.columns 6 6) "void") "f" [] (.block (.columns 15 17) []),
     .callStatement (.columns 19 22) (.call (.columns 19 21) (.name (.columns 19 19) "f") [])]

lemma Program.parse_oneCall :
    Program.parse { callDepth := 1 } CommandLine.oneCall = .ok .oneCall := by
  have htokens : Tokens.ofString { callDepth := 1 } CommandLine.oneCall
      = ⟨[⟨.keyword .func, ⟨1, 1⟩⟩, ⟨.keyword .void, ⟨1, 6⟩⟩, ⟨.identifier "f", ⟨1, 11⟩⟩,
        ⟨.symbol .lparen, ⟨1, 12⟩⟩,
          ⟨.symbol .rparen, ⟨1, 13⟩⟩, ⟨.symbol .lbrace, ⟨1, 15⟩⟩, ⟨.symbol .rbrace, ⟨1, 17⟩⟩,
          ⟨.identifier "f", ⟨1, 19⟩⟩, ⟨.symbol .lparen, ⟨1, 20⟩⟩, ⟨.symbol .rparen, ⟨1, 21⟩⟩,
          ⟨.symbol .semicolon, ⟨1, 22⟩⟩], .ok ⟨1, 22⟩⟩ := by with_unfolding_all rfl
  rw [Program.parse, htokens]
  cbv

namespace CommandLine

lemma shows_oneCall {room : Int} {out : String}
    (hout : (({} : Checker).check .oneCall).1
      ++ ((Machine.fresh room (.text "".toList) noCalls).interpret 0 .oneCall).2.output = out)
    (hfiles : ((Machine.fresh room (.text "".toList) noCalls).interpret 0
      .oneCall).2.files = noCalls) :
    Shows 0 { callDepth := 1 } room oneCall noCalls "" .run out 0 noCalls := by
  have h : Shows 0 { callDepth := 1 } room oneCall noCalls "" .run _ 0 _ :=
    .run Program.parse_oneCall (Prod.eta _).symm
  rwa [hout, hfiles] at h

/-- The settings leave no room for the call, and the session makes it. -/
theorem session_under_settings_oneCall :
    Arguments.read ["-c", "c.json", "-s", oneCall]
      = .ok { config := some "c.json", text := some oneCall } ∧
      readSettings noCalls "c.json" = some { callDepth := 1 } ∧
      Program.parse { callDepth := 1 } oneCall = .ok .oneCall ∧
      session 0 ["-c", "c.json", "-s", oneCall] noCalls ""
        = ⟨"Using config file: c.json\n" ++ "Using source code string.\n" ++ "", 0, noCalls⟩ ∧
      Shows 0 { callDepth := 1 } 1 oneCall noCalls "" .run
        "[1, 19] ERROR Maximum function call depth (1) exceeded.\n" 0
        noCalls ∧
      Limits.Matter { callDepth := 1 } 0 "" noCalls .oneCall := by
  have hargs : Arguments.read ["-c", "c.json", "-s", oneCall]
      = .ok { config := some "c.json", text := some oneCall } := by decide +kernel
  have hsettings : readSettings noCalls "c.json" = some { callDepth := 1 } := by decide +kernel
  have hparse := Program.parse_oneCall
  obtain ⟨out, status, files', hsession, hfifty, -, hends⟩ :=
    session_under_settings 0 "" hargs rfl hsettings
    (.text rfl rfl)
  obtain ⟨rfl, rfl, rfl⟩ :=
    (hfifty "" 0 noCalls).1 (shows_oneCall (by decide +kernel) (by decide +kernel))
  exact ⟨hargs, hsettings, hparse, hsession, shows_oneCall (by decide +kernel) (by decide +kernel),
    (hends _ hparse).1 (by decide +kernel)⟩

end CommandLine

end AudLang
