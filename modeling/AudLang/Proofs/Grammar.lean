import AudLang.Proofs.Reading

/-!
The trees of the grammar.

A tree can be put together in any way; the predicates here single out those that are put together by
the rules of the grammar, one constructor for each rule.  The main statement is
`isProgram_ofTokens`: whatever tokens spell a program spell one of these trees.  `Node.isTerm`,
`Node.IsOrderly` and `Node.isAction` ask for less: expressions where expressions belong, and blocks
and statements where they belong.

Both halves of the grammar are gone through by induction on what is read, with what each phrase and
each clause is in `Phrase.Spells` and `Clause.Spells`.
-/

namespace AudLang

open AudLang.Parser

variable {ns : List Node} {n : Node}

/-! ## Well-formed trees -/

namespace Node

/-- The types. -/
inductive IsType : Node → Prop
  | simple (s : Span) {k : Keyword} (h : isSimpleType k = true) : IsType (.type s k.spelling)
  | list (s : Span) {e : Node} (h : IsType e) : IsType (.listType s Keyword.list.spelling e)

/-- Does the source of a primary with its members and calls begin with a name? -/
def opensWithName : Node → Bool
  | .name .. => true
  | .member _ object _ => object.opensWithName
  | .call _ target _ => target.opensWithName
  | _ => false

/-- The expressions. -/
inductive IsExpression : Node → Prop
  | int (s : Span) {v : Int} (h : 0 ≤ v) : IsExpression (.int s v)
  | float (s : Span) (v : Float) : IsExpression (.float s v)
  | string (s : Span) (v : String) : IsExpression (.string s v)
  | bool (s : Span) (v : Bool) : IsExpression (.bool s v)
  | null (s : Span) : IsExpression (.null s)
  | name (s : Span) (id : String) : IsExpression (.name s id)
  | list (s : Span) {es : List Node} (h : ∀ e ∈ es, IsExpression e) : IsExpression (.list s es)
  | binary (s : Span) (op : BinaryOp) {left right : Node} (hl : IsExpression left)
      (hr : IsExpression right) : IsExpression (.binary s op left right)
  | negate (s : Span) {e : Node} (h : IsExpression e) : IsExpression (.negate s e)
  | member (s : Span) {object : Node} (field : String) (h : IsExpression object) :
      IsExpression (.member s object field)
  | call (s t : Span) (id : String) {args : List Node} (h : ∀ a ∈ args, IsExpression a) :
      IsExpression (.call s (.name t id) args)
  | method (s t : Span) {object : Node} (field : String) {args : List Node}
      (ho : IsExpression object) (h : ∀ a ∈ args, IsExpression a) :
      IsExpression (.call s (.member t object field) args)
  | construct (s : Span) {k : Keyword} {args : List Node} (hk : isConstructor k = true)
      (h : ∀ a ∈ args, IsExpression a) : IsExpression (.construct s k.spelling args)

/-- The parameters of functions. -/
inductive IsParameter : Node → Prop
  | mk (s : Span) {type : Node} (id : String) (h : IsType type) :
      IsParameter (.parameter s type (.plain id))

/-- The statements. -/
inductive IsStatement : Node → Prop
  | declare (s : Span) {type value : Node} (id : String) (ht : IsType type)
      (hv : ∀ t, type ≠ .type t Keyword.void.spelling) (he : IsExpression value) :
      IsStatement (.declare s type id value)
  | assign (s t : Span) (id : String) {value : Node} (he : IsExpression value) :
      IsStatement (.assign s (.name t id) value)
  | assignMember (s t : Span) {object value : Node} (field : String) (ho : IsExpression object)
      (hn : object.opensWithName = true) (he : IsExpression value) :
      IsStatement (.assign s (.member t object field) value)
  | call (s t : Span) {target : Node} {args : List Node}
      (hc : IsExpression (.call t target args)) (hn : target.opensWithName = true) :
      IsStatement (.callStatement s (.call t target args))
  | expression (s : Span) {e : Node} (he : IsExpression e) : IsStatement (.expressionStatement s e)
  | giveBack (s : Span) : IsStatement (.giveBack s .missing)
  | giveBackValue (s : Span) {e : Node} (he : IsExpression e) : IsStatement (.giveBack s e)
  | branch (s b : Span) {c : Node} {body : List Node} (hc : IsExpression c)
      (hb : ∀ n ∈ body, IsStatement n) : IsStatement (.branch s c (.block b body) .missing)
  | branchElse (s b b' : Span) {c : Node} {body other : List Node} (hc : IsExpression c)
      (hb : ∀ n ∈ body, IsStatement n) (ho : ∀ n ∈ other, IsStatement n) :
      IsStatement (.branch s c (.block b body) (.block b' other))
  | loop (s b : Span) {c : Node} {body : List Node} (hc : IsExpression c)
      (hb : ∀ n ∈ body, IsStatement n) : IsStatement (.loop s c (.block b body))
  | define (s b : Span) {returns : Node} (id : String) {parameters body : List Node}
      (ht : IsType returns) (hp : ∀ p ∈ parameters, IsParameter p)
      (hb : ∀ n ∈ body, IsStatement n) :
      IsStatement (.define s returns id parameters (.block b body))

/-- The programs: statements, with the places of those that define functions. -/
inductive IsProgram : Node → Prop
  | mk (s : Span) {statements : List Node} (h : ∀ n ∈ statements, IsStatement n) :
      IsProgram (.program s (definitionIndexes statements) statements)

end Node

/-! ## Trees in which everything is in its place -/

namespace Node

mutual

/-- The expressions whose slots hold expressions. -/
def isTerm : Node → Bool
  | .int .. | .float .. | .string .. | .bool .. | .null .. | .name .. => true
  | .list _ es | .construct _ _ es => allTerms es
  | .binary _ _ l r => l.isTerm && r.isTerm
  | .negate _ e | .member _ e _ => e.isTerm
  | .call _ target args => target.isTerm && allTerms args
  | _ => false

/-- Are all the nodes such expressions? -/
def allTerms : List Node → Bool
  | [] => true
  | n :: ns => n.isTerm && allTerms ns

end

mutual

/-- The blocks and statements whose slots hold expressions, blocks and statements as they should. -/
def isAction : Node → Bool
  | .block _ ns => allActions ns
  | .declare _ _ _ e | .callStatement _ e | .expressionStatement _ e => e.isTerm
  | .branch _ c a b => c.isTerm && a.isAction && (!b.isPresent || b.isAction)
  | .loop _ c b => c.isTerm && b.isAction
  | .assign _ target e => target.isTerm && e.isTerm
  | .giveBack _ e => !e.isPresent || e.isTerm
  | .define _ _ _ _ b => b.isAction
  | _ => false

/-- Are all the nodes such statements? -/
def allActions : List Node → Bool
  | [] => true
  | n :: ns => n.isAction && allActions ns

end

/-- Is the node a parameter with a plain name? -/
def isPlainParameter : Node → Bool
  | .parameter _ _ (.plain _) => true
  | _ => false

/-- The statements whose slots hold expressions, blocks and statements as they should.  This is
between `IsStatement`, which asks for the types and targets of the grammar as well, and `isAction`,
for which a statement may stand where a block should. -/
inductive IsOrderly : Node → Prop
  | block (s : Span) {ns : List Node} (h : ∀ n ∈ ns, IsOrderly n) : IsOrderly (.block s ns)
  | declare (s : Span) (type : Node) (id : String) {value : Node} (h : value.isTerm = true) :
      IsOrderly (.declare s type id value)
  | assign (s : Span) {target value : Node} (ht : target.isTerm = true) (hv : value.isTerm = true) :
      IsOrderly (.assign s target value)
  | call (s : Span) {e : Node} (h : e.isTerm = true) : IsOrderly (.callStatement s e)
  | expression (s : Span) {e : Node} (h : e.isTerm = true) : IsOrderly (.expressionStatement s e)
  | giveBack (s : Span) : IsOrderly (.giveBack s .missing)
  | giveBackValue (s : Span) {e : Node} (h : e.isTerm = true) : IsOrderly (.giveBack s e)
  | branch (s b : Span) {c : Node} {body : List Node} (hc : c.isTerm = true)
      (hb : ∀ n ∈ body, IsOrderly n) : IsOrderly (.branch s c (.block b body) .missing)
  | branchElse (s b b' : Span) {c : Node} {body other : List Node} (hc : c.isTerm = true)
      (hb : ∀ n ∈ body, IsOrderly n) (ho : ∀ n ∈ other, IsOrderly n) :
      IsOrderly (.branch s c (.block b body) (.block b' other))
  | loop (s b : Span) {c : Node} {body : List Node} (hc : c.isTerm = true)
      (hb : ∀ n ∈ body, IsOrderly n) : IsOrderly (.loop s c (.block b body))
  | define (s b : Span) (returns : Node) (id : String) {parameters body : List Node}
      (hp : ∀ p ∈ parameters, p.isPlainParameter = true) (hb : ∀ n ∈ body, IsOrderly n) :
      IsOrderly (.define s returns id parameters (.block b body))

lemma allTerms_iff : allTerms ns = true ↔ ∀ n ∈ ns, n.isTerm = true := by
  induction ns with
  | nil => simp [allTerms]
  | cons n ns ih => simp [allTerms, ih]

lemma allActions_iff : allActions ns = true ↔ ∀ n ∈ ns, n.isAction = true := by
  induction ns with
  | nil => simp [allActions]
  | cons n ns ih => simp [allActions, ih]

lemma IsExpression.isTerm {e : Node} (h : e.IsExpression) : e.isTerm = true := by
  induction h with
  | int | float | string | bool | null | name => rfl
  | list s h ih | construct s hk h ih => exact allTerms_iff.2 ih
  | binary s op hl hr ihl ihr => simp only [Node.isTerm, ihl, ihr, Bool.and_self]
  | negate s h ih | member s field h ih => exact ih
  | call s t id h ih => exact allTerms_iff.2 ih
  | method s t field ho h iho ih =>
    simp only [Node.isTerm, iho, Bool.true_and]
    exact allTerms_iff.2 ih

lemma IsParameter.isPlainParameter {p : Node} (h : p.IsParameter) : p.isPlainParameter = true := by
  cases h
  rfl

lemma IsStatement.isOrderly {n : Node} (h : n.IsStatement) : n.IsOrderly := by
  induction h with
  | declare s id ht hv he => exact .declare s _ id he.isTerm
  | assign s t id he => exact .assign s rfl he.isTerm
  | assignMember s t field ho hn he =>
    exact .assign s (IsExpression.member t field ho).isTerm he.isTerm
  | call s t hc hn => exact .call s hc.isTerm
  | expression s he => exact .expression s he.isTerm
  | giveBack s => exact .giveBack s
  | giveBackValue s he => exact .giveBackValue s he.isTerm
  | branch s b hc hb ih => exact .branch s b hc.isTerm ih
  | branchElse s b b' hc hb ho ih iho => exact .branchElse s b b' hc.isTerm ih iho
  | loop s b hc hb ih => exact .loop s b hc.isTerm ih
  | define s b id ht hp hb ih => exact .define s b _ id (fun p h => (hp p h).isPlainParameter) ih

lemma IsOrderly.isAction {n : Node} (h : n.IsOrderly) : n.isAction = true := by
  induction h with
  | block s h ih | define s b returns id hp hb ih => exact allActions_iff.2 ih
  | declare s type id h | call s h | expression s h => exact h
  | assign s ht hv => simp only [Node.isAction, ht, hv, Bool.and_self]
  | giveBack => rfl
  | giveBackValue s h => simp only [Node.isAction, h, Bool.or_true]
  | branch s b hc hb ih => simp [Node.isAction, hc, allActions_iff.2 ih, isPresent]
  | branchElse s b b' hc hb ho ih ih' =>
    simp only [Node.isAction, hc, allActions_iff.2 ih, allActions_iff.2 ih', Bool.and_self,
      Bool.or_true]
  | loop s b hc hb ih => simp only [Node.isAction, hc, allActions_iff.2 ih, Bool.and_self]

/-- The programs whose statements are put together as they should. -/
def isWhole : Node → Bool
  | .program _ _ ns => allActions ns
  | _ => false

lemma IsProgram.isWhole {n : Node} (h : n.IsProgram) : n.isWhole = true := by
  obtain ⟨s, hns⟩ := h
  exact allActions_iff.2 fun k hk => (hns k hk).isOrderly.isAction

lemma isAction_of_mem_definitions {s : Span} {is : List Nat}
    (h : (Node.program s is ns).isWhole = true)
    (hn : n ∈ (Node.program s is ns).definitions) : n.isAction = true := by
  obtain ⟨i, -, hi⟩ := List.mem_filterMap.1 hn
  exact allActions_iff.1 h n (List.mem_of_getElem? hi)

end Node

namespace Parser

/-! ## Expressions -/

lemma literal_isExpression {p : Position} {x : Lexeme} (h : literal? p x = some n) :
    n.IsExpression ∧ x.kind ≠ .identifier := by
  unfold literal? at h
  split at h <;> cases h
  · exact ⟨.int _ (Int.natCast_nonneg _), by simp [Lexeme.kind]⟩
  · exact ⟨.float _ _, by simp [Lexeme.kind]⟩
  · exact ⟨.string _ _, by simp [Lexeme.kind]⟩
  · exact ⟨.bool _ _, by simp [Lexeme.kind]⟩
  · exact ⟨.bool _ _, by simp [Lexeme.kind]⟩
  · exact ⟨.null _, by simp [Lexeme.kind]⟩

/-- What is read is an expression.  Where the first token is a name, a tree that is not an operation
opens with it. -/
def Phrase.Spells (ts : List Token) : Phrase → Prop
  | .level _ n | .operand _ n =>
    n.IsExpression ∧ (kind ts = .identifier → n.opensWithName = true ∨
      ∃ s op a b, n = .binary s op a b)
  | .chain _ left n =>
    left.IsExpression → n.IsExpression ∧ (n = left ∨ ∃ s op a b, n = .binary s op a b)
  | .unary n | .factor n | .primary n =>
    n.IsExpression ∧ (kind ts = .identifier → n.opensWithName = true)
  | .members object n =>
    object.IsExpression → n.IsExpression ∧ (object.opensWithName = true → n.opensWithName = true)
  | .arguments es _ | .items _ es | .moreItems es => ∀ e ∈ es, e.IsExpression

/-- Whatever the rules of expressions read is an expression. -/
lemma Reading.spells {phrase : Phrase} {ts r : List Token} (h : Reading phrase ts r) :
    phrase.Spells ts := by
  induction h with
  | level _ _ hleft hchain =>
    obtain ⟨hn, heq⟩ := hchain hleft.1
    refine ⟨hn, fun hi => ?_⟩
    rcases heq with rfl | heq
    · exact hleft.2 hi
    · exact .inr heq
  | operand _ _ h => exact h
  | tightest _ _ h => exact ⟨h.1, fun hi => .inl (h.2 hi)⟩
  | chainEnd => exact fun hleft => ⟨hleft, .inl rfl⟩
  | comparison _ _ hright => exact fun hleft => ⟨.binary _ _ hleft hright.1, .inr ⟨_, _, _, _, rfl⟩⟩
  | chain _ _ _ _ hright hchain =>
    intro hleft
    obtain ⟨hn, heq⟩ := hchain (.binary _ _ hleft hright.1)
    refine ⟨hn, .inr ?_⟩
    rcases heq with rfl | heq
    · exact ⟨_, _, _, _, rfl⟩
    · exact heq
  | minus ht _ h => exact ⟨.negate _ h.1, fun hi => by simp [kind, ht] at hi⟩
  | unary _ _ h => exact h
  | factor _ _ he hn => exact ⟨(hn he.1).1, fun hi => (hn he.1).2 (he.2 hi)⟩
  | membersEnd => exact fun ho => ⟨ho, id⟩
  | property _ _ _ _ h => exact fun ho => h (.member _ _ ho)
  | method _ _ _ _ _ hargs h => exact fun ho => h (.method _ _ _ ho hargs)
  | literal h =>
    obtain ⟨hn, hkind⟩ := literal_isExpression h
    exact ⟨hn, fun hi => absurd hi hkind⟩
  | name => exact ⟨.name _ _, fun _ => rfl⟩
  | call _ _ _ hargs => exact ⟨.call _ _ _ hargs, fun _ => rfl⟩
  | construct ht hc _ _ hargs =>
    exact ⟨.construct _ hc hargs, fun hi => by simp [kind, Token.kind, ht, Lexeme.kind] at hi⟩
  | list ht _ _ h => exact ⟨.list _ h, fun hi => by simp [kind, Token.kind, ht, Lexeme.kind] at hi⟩
  | group ht _ _ h => exact ⟨h.1, fun hi => by simp [kind, Token.kind, ht, Lexeme.kind] at hi⟩
  | arguments _ _ _ h => exact h
  | noItems | itemsEnd => exact fun _ he => absurd he List.not_mem_nil
  | items _ _ _ he hes | moreItems _ _ _ he hes => exact List.forall_mem_cons.2 ⟨he.1, hes⟩

lemma Reading.isExpression {l : Level} {ts r : List Token} (h : Reading (.level l n) ts r) :
    n.IsExpression := h.spells.1

/-! ## Statements -/

/-- An expression that opens with a name makes a call a statement of its own. -/
lemma isStatement_standing {e : Node} (close : Position) (he : e.IsExpression)
    (hn : e.opensWithName = true ∨ ∃ s op a b, e = .binary s op a b) :
    (standing close e).IsStatement := by
  unfold standing
  split
  · rename_i s target args
    refine .call _ _ he ?_
    rcases hn with hn | ⟨_, _, _, _, hn⟩
    · simpa [Node.opensWithName] using hn
    · cases hn
  · exact .expression _ he

lemma isStatement_assign {target e : Node} (s : Span) (htarget : target.IsExpression)
    (hn : target.opensWithName = true ∨ ∃ s op a b, target = .binary s op a b)
    (his : isTarget target = true)
    (he : e.IsExpression) : (Node.assign s target e).IsStatement := by
  cases htarget with
  | name => exact .assign _ _ _ he
  | member _ _ ho =>
    rcases hn with hn | ⟨_, _, _, _, hn⟩
    · exact .assignMember _ _ _ ho (by simpa [Node.opensWithName] using hn) he
    · cases hn
  | _ => simp [isTarget] at his

/-- What is read is a type, a parameter or a statement.  A type that is a single word is the word at
the front. -/
def Clause.Spells (ts : List Token) : Clause → Prop
  | .type n => n.IsType ∧ ∀ s id, n = .type s id → ∃ k, kind ts = .keyword k ∧ id = k.spelling
  | .parameter n => n.IsParameter
  | .parameters ps | .moreParameters ps => ∀ p ∈ ps, p.IsParameter
  | .condition n => n.IsExpression
  | .statement n => n.IsStatement
  | .block n => ∃ s body, n = .block s body ∧ ∀ m ∈ body, m.IsStatement
  | .statements ns | .topLevel ns => ∀ n ∈ ns, n.IsStatement

/-- Whatever the rules of statements read is a statement. -/
lemma Stating.spells {stop : Stop} {clause : Clause} {ts r : List Token}
    (h : Stating stop clause ts r) : clause.Spells ts := by
  induction h with
  | @simpleType k t r ht hk =>
    refine ⟨.simple _ hk, fun s id h => ?_⟩
    cases h
    exact ⟨k, by simp [kind, Token.kind, ht, Lexeme.kind], rfl⟩
  | listType _ _ _ _ he => exact ⟨.list _ he.1, fun s id h => by cases h⟩
  | parameter _ _ htype => exact .mk _ _ htype.1
  | noParameters | parametersEnd | noStatements | finish =>
    exact fun _ hp => absurd hp List.not_mem_nil
  | parameters _ _ _ hp hps | moreParameters _ _ _ hp hps => exact List.forall_mem_cons.2 ⟨hp, hps⟩
  | condition _ he _ => exact he.isExpression
  | @declare k _ _ _ _ _ _ _ _ hk hopens _ _ _ he _ _ htype =>
    refine .declare _ _ htype.1 ?_ he.isExpression
    -- the word for no value opens no declaration
    intro s h
    obtain ⟨k', hk', hspelling⟩ := htype.2 s _ h
    rw [hk, Kind.keyword.injEq] at hk'
    subst hk'
    revert hopens hspelling
    cases k <;> decide
  | giveBack => exact .giveBack _
  | giveBackValue _ _ he _ _ => exact .giveBackValue _ he.isExpression
  | assign hk htarget _ his he _ _ =>
    exact isStatement_assign _ htarget.isExpression (htarget.spells.2 hk) his he.isExpression
  | standing hk he _ _ => exact isStatement_standing _ he.isExpression (he.spells.2 hk)
  | other _ he _ _ => exact .expression _ he.isExpression
  | branch _ _ _ _ hc hbody =>
    obtain ⟨s, ns, rfl, hns⟩ := hbody
    exact .branch _ _ hc hns
  | branchElse _ _ _ _ _ hc hbody hother =>
    obtain ⟨s, ns, rfl, hns⟩ := hbody
    obtain ⟨s', ns', rfl, hns'⟩ := hother
    exact .branchElse _ _ _ hc hns hns'
  | loop _ _ _ hc hbody =>
    obtain ⟨s, ns, rfl, hns⟩ := hbody
    exact .loop _ _ hc hns
  | define _ _ _ _ _ _ _ hreturns hps hbody =>
    obtain ⟨s, ns, rfl, hns⟩ := hbody
    exact .define _ _ _ hreturns.1 hps hns
  | block _ _ _ _ hns => exact ⟨_, _, rfl, hns⟩
  | statements _ _ _ hn hns | topLevel _ _ hn hns => exact List.forall_mem_cons.2 ⟨hn, hns⟩

end Parser

lemma Program.isProgram_ofTokens {tokens : Tokens} (h : Program.ofTokens tokens = .ok n) :
    n.IsProgram := by
  obtain ⟨ns, rfl, -, hns⟩ := (yields_ofTokens tokens).ok h
  exact .mk _ hns.spells

/-! ## Sources of one line -/

/-- Lexemes that stand on one line, each in the next column. -/
def Tokens.onLine (lexemes : List Lexeme) : Tokens where
  tokens := lexemes.mapIdx fun i l => ⟨l, ⟨1, i⟩⟩
  stop := .ok ⟨1, lexemes.length⟩

/-- From one column of a line to another. -/
def Span.columns (first last : Nat) : Span := ⟨⟨1, first⟩, ⟨1, last⟩⟩

end AudLang
