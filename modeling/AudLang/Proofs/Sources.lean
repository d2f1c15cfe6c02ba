import AudLang.Proofs.Folding
import AudLang.Proofs.Sessions

/-!
The same source as a file and as text.

A source is given to a session as a file or as text.  The line ends of a file are folded when it is
read, and those of a text one after the other while the lexer goes through it.  Both ways lead to
the same tokens, so that the two sessions print the same behind the line that names the source.
-/

/-! ## Bytes -/

namespace AudLang.Text

variable {b first : UInt8} {bs ts : List UInt8} {low high : Nat}

lemma toNat_byte {n : Nat} (h : n < 256) : (UInt8.ofNat n).toNat = n := by
  rw [UInt8.toNat_ofNat']
  omega

/-- A byte that goes on with a character. -/
def Follows (b : UInt8) : Prop := 0x80 ≤ b.toNat ∧ b.toNat ≤ 0xBF

lemma follows_byte (n : Nat) : Follows (UInt8.ofNat (n % 64 + 128)) := by
  unfold Follows
  rw [toNat_byte (by omega)]
  omega

lemma continued_append (hb : low ≤ b.toNat ∧ b.toNat ≤ high) (hts : ∀ t ∈ ts, Follows t) :
    continued (ts.length + 1) low high (b :: (ts ++ bs)) = (ts.length + 1, none) := by
  induction ts generalizing b low high with
  | nil => simp [continued, hb]
  | cons t ts ih =>
    obtain ⟨ht, hts⟩ := List.forall_mem_cons.1 hts
    rw [List.length_cons, continued, List.cons_append, ih ht hts]
    simp [hb]

lemma flawFrom?_skip (h : ∀ place, flawFrom? place 0 bs = none) (ts : List UInt8) (place : Nat) :
    flawFrom? place ts.length (ts ++ bs) = none := by
  induction ts generalizing place with
  | nil => exact h place
  | cons t ts ih => exact ih (place + 1)

lemma flawFrom?_cons (ts : List UInt8)
    (hfirst : continuation? first = some (ts.length + 1, low, high))
    (hb : low ≤ b.toNat ∧ b.toNat ≤ high) (hts : ∀ t ∈ ts, Follows t)
    (h : ∀ place, flawFrom? place 0 bs = none) (place : Nat) :
    flawFrom? place 0 (first :: b :: (ts ++ bs)) = none := by
  simp only [flawFrom?, hfirst, continued_append hb hts]
  exact flawFrom?_skip h (b :: ts) _

lemma flawFrom?_char (c : Char) (h : ∀ place, flawFrom? place 0 bs = none) (place : Nat) :
    flawFrom? place 0 (String.utf8EncodeChar c ++ bs) = none := by
  have hone : ∀ n < 128, continuation? (UInt8.ofNat n) = some (0, 0, 0) := by decide
  have htwo : ∀ n < 32, 2 ≤ n →
    continuation? (UInt8.ofNat (n + 192)) = some (1, 0x80, 0xBF) := by decide
  have hthree : ∀ n < 16, continuation? (UInt8.ofNat (n + 224)) =
      some (2, if n = 0 then 0xA0 else 0x80, if n = 13 then 0x9F else 0xBF) := by decide
  have hfour : ∀ n < 5, continuation? (UInt8.ofNat (n + 240)) =
      some (3, if n = 0 then 0x90 else 0x80, if n = 4 then 0x8F else 0xBF) := by decide
  have hvalid : c.val.toNat < 0xD800 ∨ 0xDFFF < c.val.toNat ∧ c.val.toNat < 0x110000 := c.valid
  unfold String.utf8EncodeChar
  generalize c.val.toNat = v at hvalid
  dsimp only
  split_ifs with h1 h2 h3
  · simp only [List.singleton_append, flawFrom?, hone v (by omega), continued, h]
  · exact flawFrom?_cons [] (htwo (v / 64 % 32) (by omega) (by omega)) (follows_byte v) (by simp) h
      place
  · refine flawFrom?_cons [_] (hthree (v / 4096 % 16) (by omega)) ?_
      (List.forall_mem_singleton.2 (follows_byte _)) h place
    rw [toNat_byte (by omega)]
    constructor <;> split <;> omega
  · refine flawFrom?_cons [_, _] (hfour (v / 262144 % 8) (by omega)) ?_
      (List.forall_mem_cons.2 ⟨follows_byte _, List.forall_mem_singleton.2 (follows_byte _)⟩) h
        place
    rw [toNat_byte (by omega)]
    constructor <;> split <;> omega

/-- A text is read back from its bytes. -/
lemma decodeUtf8_toUTF8 (text : String) : decodeUtf8 text.toUTF8.data.toList = .ok text := by
  have hflaw (cs : List Char) (place : Nat) :
    flawFrom? place 0 (cs.flatMap String.utf8EncodeChar) = none := by
    induction cs generalizing place with
    | nil => rfl
    | cons c cs ih => exact flawFrom?_char c ih place
  have hbytes : text.toUTF8.data.toList = text.toList.flatMap String.utf8EncodeChar := by
    rw [← String.ofList_toList (s := text), String.toUTF8, String.toByteArray_ofList]
    simp [List.utf8Encode]
  have htext : String.fromUTF8? ⟨text.toUTF8.data.toList.toArray⟩ = some text :=
    dif_pos text.isValidUTF8
  rw [decodeUtf8, htext, hbytes, hflaw]
  rfl

end AudLang.Text

/-! ## Arguments -/

namespace AudLang.CommandLine

open Text

variable {a b : Arguments} {args rest : List String} {ds es : List Deed} {v : String}

/-- Arguments that make sense are followed by what the others ask for. -/
lemma deeds_append (h : .nonsense ∉ deeds args) (rest : List String) :
    deeds (args ++ rest) = deeds args ++ deeds rest := by
  fun_induction deeds args with
  | case1 => rfl
  | case2 o args ho ih | case3 o args ds ho ih =>
    simp only [List.mem_cons, List.mem_append, not_or] at h
    simp [deeds, ho, ih h.2]
  | case4 o fs s ho v args hv ih =>
    simp only [List.mem_cons, List.mem_append, not_or] at h
    simp [deeds, ho, hv, ih h.2.2]
  | case5 | case6 | case7 | case8 => exact absurd (List.mem_singleton_self _) h

/-- Arguments that make sense are not ambiguous. -/
lemma shape_ne_ambiguous (h : .nonsense ∉ deeds args) : ∀ o ∈ args, shape o ≠ .ambiguous := by
  fun_induction deeds args with
  | case1 => exact fun o ho => absurd ho List.not_mem_nil
  | case2 o args ho ih | case3 o args ds ho ih =>
    simp only [List.mem_cons, List.mem_append, not_or] at h
    exact List.forall_mem_cons.2 ⟨by simp [ho], ih h.2⟩
  | case4 o fs s ho v args hv ih =>
    simp only [List.mem_cons, List.mem_append, not_or] at h
    have hvalue : shape v = .value := by simpa [isValue] using hv
    exact List.forall_mem_cons.2 ⟨by simp [ho], List.forall_mem_cons.2 ⟨by simp [hvalue], ih h.2.2⟩⟩
  | case5 | case6 | case7 | case8 => exact absurd (List.mem_singleton_self _) h

/-- A text can always be attached to its option. -/
lemma deeds_attached (v : String) :
    deeds ["--string=" ++ v] = [.set .text v] ∧ deeds ["-s=" ++ v] = [.set .text v] ∧
      (v ≠ "" → ¬['='] <+: v.toList → deeds ["-s" ++ v] = [.set .text v]) := by
  have hs : options.lookup 's' = some ("string", .slot .text) := by decide
  refine ⟨?_, ?_, fun hne hv => ?_⟩
  · have hname : shape ("--string=" ++ v) = .deeds [.set .text v] := by
      simp [shape, shapeOf, options, named]
    simp [deeds, hname]
  · have hletter : shape ("-s=" ++ v) = .deeds [.set .text v] := by
      simp [shape, shapeOf, hs, cluster]
    simp [deeds, hletter]
  · have hletter : shape ("-s" ++ v) = .deeds [.set .text v] := by
      rcases hcs : v.toList with _ | ⟨c, cs⟩
      · exact absurd (String.toList_eq_nil_iff.1 hcs) hne
      · have hc : c ≠ '=' := by
          rintro rfl
          exact hv ⟨cs, hcs.symm⟩
        have hback : String.ofList (c :: cs) = v := by rw [← hcs, String.ofList_toList]
        simp [shape, shapeOf, hcs, hs, cluster, hc, hback]
    simp [deeds, hletter]

lemma shape_textOption {o : String} (ho : o ∈ ["-s", "--string"]) :
    shape o = .awaiting [] .text := by
  revert o
  decide

namespace Arguments

lemma perform_cons {d : Deed} (h : a.perform (d :: ds) = .ok b) :
    ∃ a', a'.perform ds = .ok b ∧
      ((∃ f, d = .flag f ∧ a.setFlag f = .ok a') ∨ ∃ s v, d = .set s v ∧
        a.setValue s v = .ok a') := by
  cases d with
  | flag f =>
    obtain ⟨a', hf, h⟩ := answer_of_bind h
    exact ⟨a', h, .inl ⟨f, rfl, hf⟩⟩
  | set s v =>
    obtain ⟨a', hs, h⟩ := answer_of_bind h
    exact ⟨a', h, .inr ⟨s, v, rfl, hs⟩⟩
  | stray =>
    rw [perform] at h
    split at h <;> cases h
  | nonsense => cases h

lemma perform_append (h : a.perform ds = .ok b) :
    .nonsense ∉ ds ∧ ∀ es, a.perform (ds ++ es) = b.perform es := by
  induction ds generalizing a with
  | nil =>
    cases h
    exact ⟨List.not_mem_nil, fun es => rfl⟩
  | cons d ds ih =>
    obtain ⟨a', hds, hd⟩ := perform_cons h
    obtain ⟨hsound, hmore⟩ := ih hds
    rcases hd with ⟨f, rfl, hf⟩ | ⟨s, v, rfl, hs⟩
    · refine ⟨by simp [hsound], fun es => ?_⟩
      rw [List.cons_append, perform, bind_of_answer hf, hmore]
    · refine ⟨by simp [hsound], fun es => ?_⟩
      rw [List.cons_append, perform, bind_of_answer hs, hmore]

lemma read_of_sound (h : .nonsense ∉ deeds args) : read args = perform {} (deeds args) := by
  rw [read, if_neg]
  simpa using fun o ho => shape_ne_ambiguous h o ((List.takeWhile_sublist _).mem ho)

lemma perform_of_read (h : read args = .ok b) : perform {} (deeds args) = .ok b := by
  unfold read at h
  split at h
  · cases h
  · exact h

/-- Deeds that name no source have the same effect with a source noted before. -/
lemma perform_source (h : a.perform ds = .ok b) (hfile : b.file = none) (htext : b.text = none) :
    a.file = none ∧ a.text = none ∧ ∀ file text,
      ({ a with file, text } : Arguments).perform ds = .ok { b with file, text } := by
  induction ds generalizing a with
  | nil =>
    cases h
    exact ⟨hfile, htext, fun _ _ => rfl⟩
  | cons d ds ih =>
    obtain ⟨a', h, hd⟩ := perform_cons h
    obtain ⟨hfile', htext', hmore⟩ := ih h
    rcases hd with ⟨f, rfl, hf⟩ | ⟨s, v, rfl, hs⟩
    · cases f with
      | help => cases hf
      | mode mode =>
        rw [setFlag] at hf
        split at hf
        · rename_i hmode
          cases hf
          refine ⟨hfile', htext', fun file text => ?_⟩
          rw [perform, setFlag, if_pos hmode]
          exact hmore file text
        · cases hf
    · cases s with
      | config =>
        cases hs
        exact ⟨hfile', htext', hmore⟩
      -- the last value of an option stays, so a source would still be noted at the end
      | file | text =>
        simp only [setValue] at hs
        split at hs <;> cases hs
        simp at hfile' htext'

end Arguments

/-! ## Sessions -/

variable {fuel : Nat} {mode : Mode} {c : Limits} {files : Files} {typed : String}

/-- Sources that are alike up to their line ends are processed in the same way. -/
lemma process_foldLines (text : String) :
    process fuel mode c (String.ofList (foldLines text.toList)) files typed = process fuel mode c
      text files typed := by
  have htokens := Tokens.ofString_foldLines c text
  have hparse : Program.parse c (String.ofList (foldLines text.toList)) = Program.parse c text := by
    rw [Program.parse, ← htokens, ← Program.parse]
  have hlist : Listing.ofSource c (String.ofList (foldLines text.toList)) = Listing.ofSource c
    text := by
    have hsteps : _ = List.map Prod.fst _ := congrArg Tokens.tokens htokens
    have hstop : _ = Prod.snd _ := congrArg Tokens.stop htokens
    simp only [Tokens.ofString] at hsteps hstop
    simp only [Listing.ofSource, hsteps, hstop]
  unfold process listTokens
  rw [hparse, hlist]

lemma readText_toUTF8 {path text : String} (h : files.read path = .ok text.toUTF8.data.toList) :
    readText files path = .ok (String.ofList (foldLines text.toList)) := by
  simp only [readText, h, decodeUtf8_toUTF8]

/-- Two sessions print the same behind the line that names a file or a text, or are refused their
settings. -/
def ShowAlike (a : Arguments) (files : Files) (path : String) (x y : Outcome) : Prop :=
  (∃ settings, given a.config = some settings ∧ readSettings files settings = none ∧ x = y) ∨
  ∃ head out status files', x = ⟨head ++ s!"Using source file: {path}\n" ++ out, status, files'⟩ ∧
    y = ⟨head ++ "Using source code string.\n" ++ out, status, files'⟩

section

variable {before after source : List String} {a₀ : Arguments}

/-- A source that is given between other arguments is noted besides what they ask for. -/
lemma read_source (hbefore : Arguments.read before = .ok a₀)
    (hall : Arguments.read (before ++ after) = .ok a) (hnone : a.file = none ∧ a.text = none) :
    (∀ path, deeds source = [.set .file path] →
      Arguments.read (before ++ source ++ after) = .ok { a with file := some path }) ∧
    (∀ text, deeds source = [.set .text text] →
      Arguments.read (before ++ source ++ after) = .ok { a with text := some text }) := by
  obtain ⟨hsound, hperform⟩ := Arguments.perform_append (Arguments.perform_of_read hbefore)
  have hafter : a₀.perform (deeds after) = .ok a := by
    rw [← hperform, ← deeds_append hsound]
    exact Arguments.perform_of_read hall
  have hread {d : Deed} (hd : deeds source = [d]) (hne : d ≠ .nonsense) :
      Arguments.read (before ++ source ++ after) = a₀.perform (d :: deeds after) := by
    have hdeeds : deeds (before ++ source ++ after) = deeds before ++ d :: deeds after := by
      rw [List.append_assoc, deeds_append hsound, deeds_append (by simpa [hd] using hne.symm), hd]
      rfl
    have hsound' : .nonsense ∉ deeds (before ++ source ++ after) := by
      rw [hdeeds]
      simp [hsound, hne.symm, (Arguments.perform_append hafter).1]
    rw [Arguments.read_of_sound hsound', hdeeds, hperform]
  obtain ⟨hfile₀, htext₀, hmore⟩ := Arguments.perform_source hafter hnone.1 hnone.2
  -- with the fields that are `none` written out, the source is noted by definition
  obtain ⟨config, file, text₀, mode⟩ := a
  obtain ⟨config₀, file₀, text₁, mode₀⟩ := a₀
  obtain ⟨rfl, rfl⟩ := hnone
  cases hfile₀
  cases htext₀
  exact ⟨fun path h => (hread h (by simp)).trans (hmore (some path) none),
    fun text h => (hread h (by simp)).trans (hmore none (some text))⟩

/-- **A file and its text agree.**  The same source is given as a file and as text, with the same
other options before and behind.  The two sessions end with the same status and the same files, and
print the same behind the line that names the source; or they fail to read the settings, and are
alike.  A text can always be attached to its option.  It can be put behind the option if it can be a
value, and otherwise the session does nothing. -/
theorem file_and_text_agree (fuel : Nat) (typed : String) {before after source : List String}
    {a₀ a : Arguments} {files : Files} {path text : String} (hbefore : Arguments.read before = .ok a₀)
    (hall : Arguments.read (before ++ after) = .ok a) (hnone : a.file = none ∧ a.text = none)
    (hsource : deeds source = [.set .file path]) (hpath : path ≠ "")
    (hfile : files.read path = .ok text.toUTF8.data.toList) (htext : text ≠ "") :
    (∀ source', deeds source' = [.set .text text] →
      ShowAlike a files path (session fuel (before ++ source ++ after) files typed)
        (session fuel (before ++ source' ++ after) files typed)) ∧
    deeds ["--string=" ++ text] = [.set .text text] ∧ deeds ["-s=" ++ text] = [.set .text text] ∧
    (¬['='] <+: text.toList → deeds ["-s" ++ text] = [.set .text text]) ∧
    ∀ o ∈ ["-s", "--string"],
      (isValue text = true → deeds [o, text] = [.set .text text]) ∧
      (isValue text = false →
        session fuel (before ++ [o, text] ++ after) files typed = ⟨"", 2, files⟩) := by
  have hargs := (read_source hbefore hall hnone).1 path hsource
  obtain ⟨hname, hequals, hletter⟩ := deeds_attached text
  refine ⟨fun source' hsource' => ?_, hname, hequals, hletter htext, fun o ho =>
    ⟨fun hvalue => ?_, fun hvalue => ?_⟩⟩
  · have hargs' := (read_source hbefore hall hnone).2 text hsource'
    have hnames : ({ a with file := some path } : Arguments).Names files
        s!"Using source file: {path}\n" (String.ofList (foldLines text.toList)) :=
      .file (by simp [given, hpath]) (readText_toUTF8 hfile)
    have hnames' : ({ a with text := some text } : Arguments).Names files
        "Using source code string.\n" text :=
      .text (by simp [given, hnone.1]) (by simp [given, htext])
    cases hconfig : given a.config with
    | none =>
      rcases hp : process fuel a.mode {} text files typed with ⟨⟨out, status⟩, files'⟩
      refine .inr ⟨"", out, status, files', ?_, ?_⟩
      · simp only [session, hargs, hconfig, processSource_of_names hnames, process_foldLines, hp,
          String.empty_append]
      · simp only [session, hargs', hconfig, processSource_of_names hnames', hp,
          String.empty_append]
    | some settings =>
      cases hc : readSettings files settings with
      | none =>
        refine .inl ⟨settings, hconfig, hc, ?_⟩
        simp only [session, hargs, hargs', hconfig, hc]
      | some c =>
        rcases hp : process fuel a.mode c text files typed with ⟨⟨out, status⟩, files'⟩
        refine .inr ⟨s!"Using config file: {settings}\n", out, status, files', ?_, ?_⟩
        · simp only [session, hargs, hconfig, hc, processSource_of_names hnames, process_foldLines,
            hp,
            String.append_assoc]
        · simp only [session, hargs', hconfig, hc, processSource_of_names hnames', hp,
            String.append_assoc]
  · simp [deeds, shape_textOption ho, hvalue]
  · have hrefused : Arguments.read (before ++ [o, text] ++ after) = .error .usage := by
      obtain ⟨hsound, hperform⟩ := Arguments.perform_append (Arguments.perform_of_read hbefore)
      have hdeeds : deeds (before ++ [o, text] ++ after) = deeds before ++ [.nonsense] := by
        rw [List.append_assoc, deeds_append hsound]
        simp [deeds, shape_textOption ho, hvalue]
      rw [Arguments.read, hdeeds, hperform, Arguments.perform]
      split <;> rfl
    simp only [session, hrefused]

end

/-- One file, with this text. -/
def oneFile (text : String) : Files := ⟨⟨[(["p"], .file text.toUTF8.data.toList)]⟩, []⟩

/-- A line end of two characters is one in the file and in the text. -/
theorem file_and_text_agree_return :
    Arguments.read ["-l"] = .ok { mode := .list } ∧ isValue "a\r\nb" = true ∧
      (oneFile "a\r\nb").read "p" = .ok "a\r\nb".toUTF8.data.toList ∧
      ShowAlike { mode := .list } (oneFile "a\r\nb") "p"
        (session 0 ["-l", "-f", "p"] (oneFile "a\r\nb") "")
        (session 0 ["-l", "-s", "a\r\nb"] (oneFile "a\r\nb") "") := by
  have hargs : Arguments.read ["-l"] = .ok { mode := .list } := by decide +kernel
  have hvalue : isValue "a\r\nb" = true := by decide +kernel
  have hfile : (oneFile "a\r\nb").read "p" = .ok "a\r\nb".toUTF8.data.toList := by decide +kernel
  have hsource : deeds ["-f", "p"] = [.set .file "p"] := by decide +kernel
  obtain ⟨hagree, -, -, -, hbehind⟩ :=
    file_and_text_agree 0 "" hargs (show Arguments.read (["-l"] ++ []) = _ from hargs) ⟨rfl, rfl⟩
      hsource (by decide) hfile (by decide)
  exact ⟨hargs, hvalue, hfile, hagree _ ((hbehind "-s" (by decide)).1 hvalue)⟩

/-- A text that starts like a negative number is listed from a file and where it is attached to its
option, and is refused behind the option. -/
theorem option_is_no_text :
    (session 0 ["-l", "-f", "p"] (oneFile "-1;") "").status = 0 ∧
      (session 0 ["-l", "-s-1;"] (oneFile "-1;") "").status = 0 ∧
      session 0 ["-l", "-s", "-1;"] (oneFile "-1;") "" = ⟨"", 2, oneFile "-1;"⟩ := by
  have hrefused : Arguments.read ["-l", "-s", "-1;"] = .error .usage := by decide +kernel
  exact ⟨by decide +kernel, by decide +kernel, by simp only [session, hrefused]⟩

end AudLang.CommandLine
