import AudLang.Proofs.Printing
import Mathlib

/-!
What the parser keeps of its tokens.

Parentheses that group leave no trace in a tree; every other token does, at its own place.  So a
tree that is written down without any grouping gives back the tokens it was read from, less the
parentheses that group.  Which ones do can be told from the tokens alone: an opening parenthesis
behind a name, behind a word that constructs a value, or behind `if` or `while` belongs to what is
before it, and every other one groups.
-/

namespace AudLang

open AudLang.Parser

variable {x : Lexeme} {r : List Token} {t : Token}

/-! ## Writing -/

namespace Node

/-- The tokens of a tree, without parentheses that group. -/
abbrev written : Node → List Lexeme := lexemes fun _ xs => xs

/-- Such trees with a comma between any two of them. -/
abbrev writtenList : List Node → List Lexeme := listed fun _ xs => xs

/-- Such trees with a comma in front of each of them. -/
abbrev writtenMore : List Node → List Lexeme := listedMore fun _ xs => xs

/-- Such trees one after the other. -/
abbrev writtenAll : List Node → List Lexeme := sequence fun _ xs => xs

end Node

/-! ## Ungrouping -/

namespace Lexeme

/-- Does an opening parenthesis behind the lexeme belong to it? -/
def takesParentheses : Lexeme → Bool
  | .identifier _ => true
  | .keyword k => isConstructor k || k = .if_ || k = .while_
  | _ => false

/-- The lexemes without the parentheses that group.  `attached` says whether an opening parenthesis
would belong to what is before it, and `groups` says of each parenthesis that is open, from the
innermost outward, whether it groups. -/
def ungroup (attached : Bool) (groups : List Bool) : List Lexeme → List Lexeme
  | [] => []
  | .symbol .lparen :: xs =>
    if attached then .symbol .lparen :: ungroup false (false :: groups) xs
    else ungroup false (true :: groups) xs
  | .symbol .rparen :: xs =>
    if groups.headD false then ungroup false groups.tail xs
    else .symbol .rparen :: ungroup false groups.tail xs
  | x :: xs => x :: ungroup x.takesParentheses groups xs

/-- Is the lexeme a parenthesis? -/
def isParenthesis : Lexeme → Bool
  | .symbol .lparen | .symbol .rparen => true
  | _ => false

lemma ungroup_other (h : x.isParenthesis = false) (attached : Bool) (groups : List Bool)
    (xs : List Lexeme) :
    ungroup attached groups (x :: xs) = x :: ungroup x.takesParentheses groups xs := by
  cases x with
  | symbol s => cases s <;> first | rfl | cases h
  | _ => rfl

lemma ungroup_group (groups : List Bool) (xs : List Lexeme) :
    ungroup false groups (.symbol .lparen :: xs) = ungroup false (true :: groups) xs := rfl

lemma ungroup_attached (groups : List Bool) (xs : List Lexeme) :
    ungroup true groups (.symbol .lparen :: xs) = .symbol .lparen :: ungroup false (false :: groups)
      xs := rfl

lemma ungroup_close (grouping : Bool) (groups : List Bool) (xs : List Lexeme) :
    ungroup false (grouping :: groups) (.symbol .rparen :: xs)
      = if grouping then ungroup false groups xs else .symbol .rparen :: ungroup false groups xs :=
  rfl

/-- Only an opening parenthesis belongs to what is before it. -/
lemma ungroup_congr {xs : List Lexeme} (h : xs.head? ≠ some (.symbol .lparen)) (attached : Bool)
    (groups : List Bool) : ungroup attached groups xs = ungroup false groups xs := by
  cases xs with
  | nil => rfl
  | cons x xs =>
    cases x with
    | symbol s => cases s <;> first | rfl | exact absurd rfl h
    | _ => rfl

lemma filter_ungroup (attached : Bool) (groups : List Bool) (xs : List Lexeme) :
    (ungroup attached groups xs).filter (!·.isParenthesis) = xs.filter (!·.isParenthesis) := by
  fun_induction ungroup attached groups xs with
  | case1 => rfl
  | case2 groups xs ih => exact ih
  | case3 groups xs attached hattached ih => exact ih
  | case4 attached groups xs hgroups ih => exact ih
  | case5 attached groups xs hgroups ih => exact ih
  | case6 attached groups x xs hopen hclose ih => simp only [List.filter_cons, ih]

end Lexeme

open Lexeme

/-! ## Tokens -/

namespace Token

lemma lexeme_of_symbol {s : Symbol} (h : t.kind = .symbol s) : t.lexeme = .symbol s := by
  obtain ⟨x, p⟩ := t
  cases x with
  | symbol s' => cases h; rfl
  | _ => cases h

lemma lexeme_of_keyword {k : Keyword} (h : t.kind = .keyword k) : t.lexeme = .keyword k := by
  obtain ⟨x, p⟩ := t
  cases x with
  | keyword k' => cases h; rfl
  | _ => cases h

lemma lexeme_of_identifier (h : t.kind = .identifier) : t.lexeme = .identifier t.identifier := by
  obtain ⟨x, p⟩ := t
  cases x with
  | identifier id => rfl
  | _ => cases h

end Token

namespace Parser

/-- The tokens in front of the rest are these, but for parentheses that group. -/
def Takes (ts : List Token) (ws : List Lexeme) (r : List Token) : Prop :=
  ∀ groups, ungroup false groups (ts.map Token.lexeme) = ws ++ ungroup false groups
    (r.map Token.lexeme)

/-- So they are where a parenthesis would belong to what is before. -/
def TakesAttached (ts : List Token) (ws : List Lexeme) (r : List Token) : Prop :=
  ∀ groups, ungroup true groups (ts.map Token.lexeme) = ws ++ ungroup false groups
    (r.map Token.lexeme)

lemma head_ne_lparen (h : kind r ≠ .symbol .lparen) :
    (r.map Token.lexeme).head? ≠ some (.symbol .lparen) := by
  cases r with
  | nil => simp
  | cons t r =>
    intro heq
    simp only [List.map_cons, List.head?_cons, Option.some.injEq] at heq
    exact h (by simp [kind, Token.kind, heq, Lexeme.kind])

namespace Takes

variable {ts r₁ r₂ : List Token} {ws vs : List Lexeme} {u : Token}

lemma nil (ts : List Token) : Takes ts [] ts := fun _ => rfl

lemma trans (h : Takes ts ws r) (h' : Takes r vs r₁) : Takes ts (ws ++ vs) r₁ := by
  intro groups
  rw [h, h', List.append_assoc]

/-- One token that is no parenthesis, and behind which none belongs to it. -/
lemma token (hp : t.lexeme.isParenthesis = false)
    (hr : t.lexeme.takesParentheses = true → kind r ≠ .symbol .lparen) : Takes (t :: r)
    [t.lexeme] r := by
  intro groups
  rw [List.map_cons, ungroup_other hp]
  cases ht : t.lexeme.takesParentheses with
  | false => rfl
  | true => rw [ungroup_congr (head_ne_lparen (hr ht))]; rfl

lemma symbol {s : Symbol} (ht : t.lexeme = .symbol s)
    (hs : (Lexeme.symbol s).isParenthesis = false) : Takes (t :: r) [.symbol s] r := by
  rw [← ht]
  exact .token (ht ▸ hs) fun h => by rw [ht] at h; cases h

lemma mark {s : Symbol} (ht : t.kind = .symbol s) (hs : (Lexeme.symbol s).isParenthesis = false) :
    Takes (t :: r) [.symbol s] r := .symbol (Token.lexeme_of_symbol ht) hs

lemma keyword {k : Keyword} (ht : t.lexeme = .keyword k)
    (hr : (Lexeme.keyword k).takesParentheses = true → kind r ≠ .symbol .lparen) :
    Takes (t :: r) [.keyword k] r := by
  rw [← ht] at hr ⊢
  exact .token (by rw [ht]; rfl) hr

lemma word {k : Keyword} (ht : t.kind = .keyword k)
    (hk : (Lexeme.keyword k).takesParentheses = false) :
    Takes (t :: r) [.keyword k] r :=
  .keyword (Token.lexeme_of_keyword ht) fun h => absurd h (by simp [hk])

lemma identifier (ht : t.kind = .identifier) (hr : kind r ≠ .symbol .lparen) :
    Takes (t :: r) [.identifier t.identifier] r := by
  rw [← Token.lexeme_of_identifier ht]
  exact .token (by rw [Token.lexeme_of_identifier ht]; rfl) fun _ => hr

lemma group (ht : t.lexeme = .symbol .lparen) (hu : u.kind = .symbol .rparen)
    (h : Takes r ws (u :: r₁)) : Takes (t :: r) ws r₁ := by
  intro groups
  rw [List.map_cons, ht, ungroup_group, h, List.map_cons, Token.lexeme_of_symbol hu, ungroup_close]
  rfl

lemma attach (hx : t.lexeme = x) (hp : x.isParenthesis = false) (ht : x.takesParentheses = true)
    (h : TakesAttached r ws r₁) : Takes (t :: r) (x :: ws) r₁ := by
  subst hx
  intro groups
  rw [List.map_cons, ungroup_other hp, ht, h]
  rfl

end Takes

/-- Parentheses that belong to what is before them. -/
lemma TakesAttached.enclosed {u : Token} {r₁ : List Token} {ws : List Lexeme}
    (ht : t.kind = .symbol .lparen) (hu : u.kind = .symbol .rparen) (h : Takes r ws (u :: r₁)) :
    TakesAttached (t :: r) (.symbol .lparen :: (ws ++ [.symbol .rparen])) r₁ := by
  intro groups
  rw [List.map_cons, Token.lexeme_of_symbol ht, ungroup_attached, h, List.map_cons,
    Token.lexeme_of_symbol hu,
    ungroup_close]
  simp

lemma kind_ne {k : Kind} (ht : t.kind = k) (hk : k ≠ .symbol .lparen) :
    kind (t :: r) ≠ .symbol .lparen := by
  subst ht
  exact hk

/-! ## Expressions -/

/-- What a phrase takes from its tokens. -/
def Phrase.Kept (ts r : List Token) : Phrase → Prop
  | .level _ n | .operand _ n | .unary n | .factor n | .primary n => Takes ts n.written r
  | .chain _ first n | .members first n => ∃ ws, n.written = first.written ++ ws ∧ Takes ts ws r
  | .arguments args _ =>
    TakesAttached ts (.symbol .lparen :: (Node.writtenList args ++ [.symbol .rparen])) r
  | .items _ es => Takes ts (Node.writtenList es) r
  | .moreItems es => Takes ts (Node.writtenMore es) r

/-- A literal is written as it stands. -/
lemma written_literal {p : Position} {n : Node} (h : literal? p x = some n) :
    n.written = [x] ∧ x.isParenthesis = false ∧ x.takesParentheses = false := by
  unfold literal? at h
  split at h <;> cases h <;> exact ⟨rfl, rfl, rfl⟩

lemma symbol_of_op? {l : Level} {k : Kind} {op : BinaryOp} (h : l.op? k = some op) :
    k = .symbol op.mark := by
  unfold Level.op? at h
  split at h <;> cases h <;> rfl

lemma Takes.operator {l : Level} {op : BinaryOp} (h : l.op? t.kind = some op) :
    Takes (t :: r) [.symbol op.mark] r := .mark (symbol_of_op? h) (by cases op <;> rfl)

/-- The rules of expressions take what their trees are written with. -/
lemma Reading.kept {phrase : Phrase} {ts : List Token} (h : Reading phrase ts r) :
    phrase.Kept ts r := by
  induction h with
  | level _ _ hleft hrest | factor _ _ hleft hrest =>
    obtain ⟨ws, hws, hrest⟩ := hrest
    rw [Phrase.Kept, hws]
    exact hleft.trans hrest
  | operand _ _ h | tightest _ _ h | unary _ _ h => exact h
  | chainEnd | membersEnd => exact ⟨[], (List.append_nil _).symm, .nil _⟩
  | comparison hop _ hright => exact ⟨_, rfl, (Takes.operator hop).trans hright⟩
  | chain hop _ _ _ hright hchain =>
    obtain ⟨ws, hws, hrest⟩ := hchain
    refine ⟨_, ?_, ((Takes.operator hop).trans hright).trans hrest⟩
    rw [hws]
    simp [binaryNode, Node.lexemes]
  | minus ht _ h => exact (Takes.mark ht rfl).trans h
  | property ht hu hk _ h =>
    obtain ⟨ws, hws, hrest⟩ := h
    refine ⟨_, ?_, ((Takes.mark ht rfl).trans (.identifier hu hk)).trans hrest⟩
    rw [hws]
    simp [Node.lexemes]
  | method ht hu _ _ _ hargs h =>
    obtain ⟨ws, hws, hrest⟩ := h
    have hname := Takes.attach (Token.lexeme_of_identifier hu) rfl rfl hargs
    refine ⟨_, ?_, ((Takes.mark ht rfl).trans hname).trans hrest⟩
    rw [hws]
    simp [Node.lexemes]
  | literal h =>
    obtain ⟨hn, hp, ht⟩ := written_literal h
    rw [Phrase.Kept, hn]
    exact .token hp fun h => by rw [ht] at h; cases h
  | name ht hk =>
    rw [Phrase.Kept, Node.written, Node.lexemes, ← ht]
    exact .token (by rw [ht]; rfl) fun _ => hk
  | call ht _ _ hargs => exact .attach ht rfl rfl hargs
  | construct ht hc _ _ hargs =>
    rw [Phrase.Kept, Node.written, Node.lexemes, word_spelling]
    exact .attach ht rfl (by simp [takesParentheses, hc]) hargs
  | list ht _ hu h => exact ((Takes.symbol ht rfl).trans h).trans (.mark hu rfl)
  | group ht _ hu h => exact .group ht hu h
  | arguments ht _ hu h => exact .enclosed ht hu h
  | noItems | itemsEnd => exact .nil _
  | items _ _ _ he hes => exact he.trans hes
  | moreItems ht _ _ he hes => exact (Takes.mark ht rfl).trans (he.trans hes)

/-! ## Statements -/

lemma written_standing (close : Position) (e : Node) :
    (standing close e).written = e.written ++ [.symbol .semicolon] := by
  unfold standing
  split <;> rfl

/-- What a clause takes from its tokens.  Behind the last word of a type or a parameter no
parenthesis opens, and none opens behind what is before further parameters. -/
def Clause.Kept (ts r : List Token) : Clause → Prop
  | .type n | .parameter n => kind r ≠ .symbol .lparen → Takes ts n.written r
  | .parameters ps => kind r ≠ .symbol .lparen → Takes ts (Node.writtenList ps) r
  | .moreParameters ps =>
    kind r ≠ .symbol .lparen → Takes ts (Node.writtenMore ps) r ∧ kind ts ≠ .symbol .lparen
  | .condition c => TakesAttached ts (.symbol .lparen :: (c.written ++ [.symbol .rparen])) r
  | .statement n => Takes ts n.written r
  | .block n => Takes ts n.written r ∧ n.isPresent = true
  | .statements ns | .topLevel ns => Takes ts (Node.writtenAll ns) r

/-- The rules of statements take what their trees are written with. -/
lemma Stating.kept {stop : Stop} {clause : Clause} {ts r : List Token}
    (h : Stating stop clause ts r) : clause.Kept ts r := by
  induction h with
  | simpleType ht _ =>
    intro hr
    rw [Node.written, Node.lexemes, word_spelling]
    exact .keyword ht fun _ => hr
  | listType ht hu _ hv he =>
    intro _
    have helement := (Takes.mark hu rfl).trans ((he (kind_ne hv (by simp))).trans (.mark hv rfl))
    exact (Takes.keyword ht fun h => by cases h).trans helement
  | parameter _ hu htype => exact fun hr => (htype (kind_ne hu (by simp))).trans (.identifier hu hr)
  | noParameters => exact fun _ => .nil _
  | parameters _ _ _ hp hps => exact fun hr => (hp (hps hr).2).trans (hps hr).1
  | parametersEnd => exact fun hr => ⟨.nil _, hr⟩
  | moreParameters ht _ _ hp hps =>
    exact fun hr =>
      ⟨(Takes.mark ht rfl).trans ((hp (hps hr).2).trans (hps hr).1), kind_ne ht (by simp)⟩
  | condition ht he hu => exact .enclosed ht hu he.kept
  | declare _ _ _ ht hu he hv _ htype =>
    have hleft := (htype (kind_ne ht (by simp))).trans (.identifier ht (kind_ne hu (by simp)))
    have hright := (Takes.mark hu rfl).trans (he.kept.trans (.mark hv rfl))
    simpa [Clause.Kept, Node.lexemes] using hleft.trans hright
  | giveBack ht hu _ => exact (Takes.word ht rfl).trans (.mark hu rfl)
  | giveBackValue ht _ he hu _ => exact (Takes.word ht rfl).trans (he.kept.trans (.mark hu rfl))
  | assign _ htarget ht _ he hu _ =>
    exact htarget.kept.trans ((Takes.mark ht rfl).trans (he.kept.trans (.mark hu rfl)))
  | standing _ he hu _ =>
    rw [Clause.Kept, written_standing]
    exact he.kept.trans (.mark hu rfl)
  | other _ he hu _ => exact he.kept.trans (.mark hu rfl)
  | branch ht _ _ _ hc hbody =>
    have hcondition := Takes.attach (Token.lexeme_of_keyword ht) rfl rfl hc
    simpa [Clause.Kept, Node.lexemes, Node.isPresent] using hcondition.trans hbody.1
  | branchElse ht _ _ hu _ hc hbody hother =>
    have hcondition := Takes.attach (Token.lexeme_of_keyword ht) rfl rfl hc
    have helse := (Takes.word hu rfl).trans hother.1
    simpa [Clause.Kept, Node.lexemes, hother.2] using (hcondition.trans hbody.1).trans helse
  | loop ht _ _ hc hbody =>
    have hcondition := Takes.attach (Token.lexeme_of_keyword ht) rfl rfl hc
    simpa [Clause.Kept, Node.lexemes] using hcondition.trans hbody.1
  | define ht _ hu hv _ hw _ hreturns hps hbody =>
    have hparameters := TakesAttached.enclosed hv hw (hps (kind_ne hw (by simp)))
    have hname := Takes.attach (Token.lexeme_of_identifier hu) rfl rfl hparameters
    have hhead := (Takes.word ht rfl).trans ((hreturns (kind_ne hu (by simp))).trans hname)
    simpa [Clause.Kept, Node.lexemes] using hhead.trans hbody.1
  | block ht _ hu _ hns => exact ⟨(Takes.mark ht rfl).trans (hns.trans (.mark hu rfl)), rfl⟩
  | noStatements | finish => exact .nil _
  | statements _ _ _ hn hns | topLevel _ _ hn hns => exact hn.trans hns

end Parser

/-! ## Programs -/

/-- The parser loses nothing, adds nothing and changes no order: the program that some tokens spell,
written without any grouping, is the tokens without the parentheses that group.  All other tokens
stay. -/
theorem written_of_ofTokens {tokens : Tokens} {program : Node}
    (h : Program.ofTokens tokens = .ok program) :
    ungroup false [] (tokens.tokens.map Token.lexeme) = program.written ∧
      (tokens.tokens.map Token.lexeme).filter (!·.isParenthesis) = program.written.filter
        (!·.isParenthesis) := by
  have hungroup : ungroup false [] (tokens.tokens.map Token.lexeme) = program.written := by
    obtain ⟨ns, rfl, -, hns⟩ := (yields_ofTokens tokens).ok h
    exact (hns.kept []).trans (List.append_nil _)
  exact ⟨hungroup, by rw [← hungroup, filter_ungroup]⟩

/-- `if ((x) < f(1)) { y = -(a.b((2))); }` -/
def Lexeme.grouped : List Lexeme :=
  [.keyword .if_, .symbol .lparen, .symbol .lparen, .identifier "x", .symbol .rparen, .symbol .lt,
    .identifier "f",
    .symbol .lparen, .int 1, .symbol .rparen, .symbol .rparen, .symbol .lbrace, .identifier "y",
      .symbol .assign,
    .symbol .minus, .symbol .lparen, .identifier "a", .symbol .dot, .identifier "b",
      .symbol .lparen,
    .symbol .lparen, .int 2, .symbol .rparen, .symbol .rparen, .symbol .rparen, .symbol .semicolon,
      .symbol .rbrace]

/-- The tree that these lexemes spell. -/
def Node.grouped : Node :=
  .program (.columns 0 27) []
    [.branch (.columns 0 26)
      (.binary (.columns 3 9) .less (.name (.columns 3 3) "x")
        (.call (.columns 6 9) (.name (.columns 6 6) "f") [.int (.columns 8 8) 1]))
      (.block (.columns 11 26)
        [.assign (.columns 12 25) (.name (.columns 12 12) "y")
          (.negate (.columns 14 23)
            (.call (.columns 16 23) (.member (.columns 16 18) (.name (.columns 16 16) "a") "b")
              [.int (.columns 21 21) 2]))])
      .missing]

/-- Three pairs of parentheses group, and those of the condition and of the two calls stay. -/
theorem written_of_ofTokens_grouped :
    Program.ofTokens (.onLine Lexeme.grouped) = .ok .grouped ∧
      Node.grouped.written = [.keyword .if_, .symbol .lparen, .identifier "x", .symbol .lt,
        .identifier "f",
        .symbol .lparen, .int 1, .symbol .rparen, .symbol .rparen, .symbol .lbrace, .identifier "y",
        .symbol .assign, .symbol .minus, .identifier "a", .symbol .dot, .identifier "b",
        .symbol .lparen, .int 2, .symbol .rparen, .symbol .semicolon, .symbol .rbrace] := by
  have hparse : Program.ofTokens (.onLine Lexeme.grouped) = .ok .grouped := by cbv
  exact ⟨hparse, (written_of_ofTokens hparse).1.symm⟩

end AudLang
