import AudLang.Proofs.Grammar

/-!
Expressions as statements.

A statement is read by the rule that its first token stands for.  Most expressions that have a
semicolon behind them are read by a rule for expressions then, and make a statement of their own.
The words `File`, `Folder` and `Audio` open declarations as well as constructions, and the rule for
declarations comes first: what constructs a value is no statement.
-/

set_option linter.unusedVariables false

namespace AudLang

variable {r : List Token} {k : Keyword}

namespace Parser

variable {p q : Position} {ext : List Token}

/-! ## Semicolons -/

lemma kind_append_iff (hext : kind ext = .symbol .semicolon) {s : Symbol} (hs : s ≠ .semicolon)
    (r : List Token) : kind (r ++ ext) = .symbol s ↔ kind r = .symbol s := by
  cases r with
  | nil =>
    rw [List.nil_append, hext]
    simp [kind, hs.symm]
  | cons t r => rfl

lemma op?_append (hext : kind ext = .symbol .semicolon) {l : Level} (h : l.op? (kind r) = none) :
    l.op? (kind (r ++ ext)) = none := by
  cases r with
  | nil =>
    rw [List.nil_append, hext]
    cases l <;> rfl
  | cons t r => exact h

/-- Is the phrase not one that a semicolon closes? -/
def Phrase.isOpen : Phrase → Bool
  | .items .semicolon _ => false
  | _ => true

/-- A semicolon ends an expression where the end of the text does. -/
lemma Reading.append {phrase : Phrase} {ts : List Token} (h : Reading phrase ts r)
    (hext : kind ext = .symbol .semicolon) :
    phrase.isOpen = true → Reading phrase (ts ++ ext) (r ++ ext) := by
  have hsame {s : Symbol} (hs : s ≠ .semicolon) (r : List Token) := kind_append_iff hext hs r
  induction h with
  | level _ _ hleft hchain => exact fun _ => .level (hleft rfl) (hchain rfl)
  | operand hm _ h => exact fun _ => .operand hm (h rfl)
  | tightest hl _ h => exact fun _ => .tightest hl (h rfl)
  | chainEnd h => exact fun _ => .chainEnd (op?_append hext h)
  | comparison hop _ hright => exact fun _ => .comparison hop (hright rfl)
  | chain hop hl _ _ hright hchain => exact fun _ => .chain hop hl (hright rfl) (hchain rfl)
  | minus ht _ h => exact fun _ => .minus ht (h rfl)
  | unary hk _ h => exact fun _ => .unary (mt (hsame (by decide) _).1 hk) (h rfl)
  | factor _ _ he hn => exact fun _ => .factor (he rfl) (hn rfl)
  | membersEnd h => exact fun _ => .membersEnd (mt (hsame (by decide) _).1 h)
  | property ht hu hk _ h => exact fun _ => .property ht hu (mt (hsame (by decide) _).1 hk) (h rfl)
  | method ht hu hk _ _ hargs h =>
    exact fun _ => .method ht hu ((hsame (by decide) _).2 hk) (hargs rfl) (h rfl)
  | literal h => exact fun _ => .literal h
  | name ht hk => exact fun _ => .name ht (mt (hsame (by decide) _).1 hk)
  | call ht hk _ hargs => exact fun _ => .call ht ((hsame (by decide) _).2 hk) (hargs rfl)
  | construct ht hc hk _ hargs =>
    exact fun _ => .construct ht hc ((hsame (by decide) _).2 hk) (hargs rfl)
  | list ht _ hu h => exact fun _ => .list ht (h rfl) hu
  | group ht _ hu h => exact fun _ => .group ht (h rfl) hu
  | arguments ht _ hu h => exact fun _ => .arguments ht (h rfl) hu
  | noItems h =>
    intro hopen
    exact .noItems ((hsame (fun hclosing => by subst hclosing; cases hopen) _).2 h)
  | items hk _ _ he hes =>
    intro hopen
    exact .items (mt (hsame (fun hclosing => by subst hclosing; cases hopen) _).1 hk) (he rfl)
      (hes rfl)
  | itemsEnd h => exact fun _ => .itemsEnd (mt (hsame (by decide) _).1 h)
  | moreItems ht _ _ he hes => exact fun _ => .moreItems ht (he rfl) (hes rfl)

/-! ## First tokens -/

variable {ts : List Token}

/-- The words that are values by themselves. -/
def isValue : Keyword → Bool
  | .true_ | .false_ | .null => true
  | _ => false

/-- A word in front of the tokens is a value, or it constructs one from arguments. -/
def OpensValue (ts : List Token) : Prop :=
  ∀ k, kind ts = .keyword k → isValue k = true ∨ isConstructor k = true ∧
    kind ts.tail = .symbol .lparen

lemma isValue_of_literal {place : Position} {n : Node} (h : literal? place (.keyword k) = some n) :
    isValue k = true := by
  cases k <;> first | rfl | cases h

lemma isValue_of_isConstructor (h : isConstructor k = true) : isValue k = false := by
  cases k <;> first | rfl | cases h

/-- Where an expression opens, a word is a value or constructs one. -/
def Phrase.Opens (ts : List Token) : Phrase → Prop
  | .level .. | .operand .. | .unary _ | .factor _ | .primary _ => OpensValue ts
  | _ => True

lemma Reading.opens {phrase : Phrase} {ts : List Token} (h : Reading phrase ts r) :
    phrase.Opens ts := by
  induction h with
  | level _ _ h _ | operand _ _ h | tightest _ _ h | unary _ _ h | factor _ _ h _ => exact h
  | minus ht _ _ =>
    intro k hk
    cases ht.symm.trans hk
  | @literal n t r h =>
    obtain ⟨x, q⟩ := t
    intro k hk
    cases x <;> cases hk
    exact .inl (isValue_of_literal h)
  | @construct k args close t ts r ht hc hk _ _ =>
    obtain ⟨x, q⟩ := t
    cases ht
    intro k' hk'
    cases hk'
    exact .inr ⟨hc, hk⟩
  | @name id t r ht _ | @call id args close t r _ ht _ _ _ =>
    obtain ⟨x, q⟩ := t
    cases ht
    intro k hk
    cases hk
  | @list es t u ts r ht _ _ _ | @group e t u ts r ht _ _ _ =>
    obtain ⟨x, q⟩ := t
    cases ht
    intro k hk
    cases hk
  | _ => trivial

/-! ## Statements -/

/-- Do the tokens open with a word that constructs a value? -/
def opensConstruction (ts : List Token) : Bool :=
  match kind ts with
  | .keyword k => isConstructor k
  | _ => false

lemma opensOther_of_isValue (hname : kind ts ≠ .identifier)
    (hword : ∀ k, kind ts = .keyword k → isValue k = true) : opensOther (kind ts) = true := by
  cases hk : kind ts with
  | identifier => exact absurd hk hname
  | keyword k =>
    have hvalue := hword k hk
    cases k <;> first | rfl | cases hvalue
  | _ => rfl

/-- A word that constructs a value is taken for a type, and no name follows. -/
lemma statement_of_construction (hk : isConstructor k = true) {place : Position}
    (hr : kind r = .symbol .lparen) : (statement (.ok q) (⟨.keyword k, place⟩ :: r)).result
      = .error (.expected (.kind .identifier) (.symbol .lparen) (position (.ok q) r)) := by
  have htype : isSimpleType k = true := by
    cases k <;> first | rfl | cases hk
  have hopens : opensDeclaration k = true := by
    cases k <;> first | rfl | cases hk
  have hname : expect (.ok q) .identifier r = fail (.ok q) (.kind .identifier) r := by
    cases r with
    | nil => cases hr
    | cons u r =>
      have hu : u.kind ≠ .identifier := by
        rw [show u.kind = .symbol .lparen from hr]
        decide
      rw [expect, if_neg hu]
  have hword : Stating (.ok q) (.type (.type ⟨place, place⟩ k.spelling)) (⟨.keyword k, place⟩ :: r)
    r :=
    .simpleType (t := ⟨.keyword k, place⟩) rfl htype
  obtain ⟨_, hword⟩ := hword.isParsed
  rw [statement_of_opensDeclaration rfl hopens, declaration]
  refine (result_bind (x := .call (typeName (.ok q) (⟨.keyword k, place⟩ :: r))) hword).trans ?_
  simp only [hname, fail, hr]
  rfl

/-- An expression with a semicolon behind it is read as a statement that holds the expression, and
no more is taken, unless it opens with a word that constructs a value.  In this case the parser asks
for the name of a variable where the arguments open. -/
theorem statement_of_expression {ts rest : List Token} {e : Node} {close : Position}
    (he : Reads (expression (.ok p) ts) e []) :
    (opensConstruction ts = false →
      ∃ n, Reads (statement (.ok q) (ts ++ ⟨.symbol .semicolon, close⟩ :: rest)) n rest ∧
        (n = .expressionStatement ⟨e.start, close⟩ e ∨ n = .callStatement ⟨e.start, close⟩ e)) ∧
    (opensConstruction ts = true →
      (statement (.ok q) (ts ++ ⟨.symbol .semicolon, close⟩ :: rest)).result
        = .error (.expected (.kind .identifier) (.symbol .lparen) (position (.ok q) ts.tail))) := by
  obtain ⟨hlength, he⟩ := he
  have hlevel : Reading (.level .disjunction e) ts [] := (finds_expression _ _).ok he
  have hopens : OpensValue ts := hlevel.opens
  have hread : Reading (.level .disjunction e) (ts ++ ⟨.symbol .semicolon, close⟩ :: rest)
      (⟨.symbol .semicolon, close⟩ :: rest) := hlevel.append rfl rfl
  cases ts with
  | nil => cases hlength
  | cons t ts =>
    constructor
    · intro hconstruction
      by_cases hname : kind (t :: ts) = .identifier
      · have hstands : Stating (.ok q) (.statement (standing close e))
            (t :: ts ++ ⟨.symbol .semicolon, close⟩ :: rest) rest :=
          .standing (u := ⟨.symbol .semicolon, close⟩) hname hread rfl (reach_ok _)
        refine ⟨standing close e, hstands.isParsed, ?_⟩
        cases e with
        | call => exact .inr rfl
        | _ => exact .inl rfl
      · have hword (k : Keyword) (hk : kind (t :: ts) = .keyword k) : isValue k = true := by
          refine (hopens k hk).resolve_right fun h => ?_
          rw [opensConstruction, hk] at hconstruction
          cases h.1.symm.trans hconstruction
        have hstands : Stating (.ok q) (.statement (.expressionStatement ⟨e.start, close⟩ e))
            (t :: ts ++ ⟨.symbol .semicolon, close⟩ :: rest) rest :=
          .other (u := ⟨.symbol .semicolon, close⟩) (opensOther_of_isValue hname hword) hread rfl
            (reach_ok _)
        exact ⟨_, hstands.isParsed, .inl rfl⟩
    · intro hconstruction
      obtain ⟨x, place⟩ := t
      cases x with
      | keyword k =>
        have hk : isConstructor k = true := hconstruction
        rcases hopens k rfl with hvalue | ⟨-, hparen⟩
        · rw [isValue_of_isConstructor hk] at hvalue
          cases hvalue
        · cases ts with
          | nil => cases hparen
          | cons u ts => exact statement_of_construction hk hparen
      | _ => cases hconstruction

/-- `f(1)` -/
def calling : List Token :=
  (Tokens.onLine [.identifier "f", .symbol .lparen, .int 1, .symbol .rparen]).tokens

/-- `File("a")` -/
def constructing : List Token :=
  (Tokens.onLine [.keyword .file, .symbol .lparen, .string "a", .symbol .rparen]).tokens

lemma reads_calling :
    Reads (expression (.ok ⟨1, 4⟩) calling)
      (.call (.columns 0 3) (.name (.columns 0 0) "f") [.int (.columns 2 2) 1]) [] :=
  ⟨by decide, by cbv⟩

lemma reads_constructing :
    Reads (expression (.ok ⟨1, 4⟩) constructing)
      (.construct (.columns 0 3) "File" [.string (.columns 2 2) "a"]) [] :=
  ⟨by decide, by cbv⟩

/-- A call makes a statement, a construction does not. -/
theorem statement_of_expression_construction :
    (∃ n, Reads (statement (.ok ⟨1, 5⟩) (calling ++ [⟨.symbol .semicolon, ⟨1, 4⟩⟩])) n []) ∧
      (statement (.ok ⟨1, 5⟩) (constructing ++ [⟨.symbol .semicolon, ⟨1, 4⟩⟩])).result
        = .error (.expected (.kind .identifier) (.symbol .lparen) ⟨1, 1⟩) := by
  obtain ⟨n, hn, -⟩ := (statement_of_expression reads_calling).1 rfl
  exact ⟨⟨n, hn⟩, (statement_of_expression reads_constructing).2 rfl⟩

end Parser

end AudLang
