import AudLang.Proofs.Printing

/-!
Reading what was written.

The main statement is `ofTokens_of_lexemes`: tokens that spell a tree of the grammar, wherever each
of them stands, are read as this tree, up to places.

For an expression it matters what comes behind it: `Kind.binding` says how tightly a token would
bind what stands in front of it, and `Readable` gathers what is read of the tokens of an expression
as long as nothing behind them binds too tightly.  A left operand is not finished where its tokens
end, since an operator of its own level may follow, so the chain of operators is asked to go on from
there.
-/

set_option linter.unusedVariables false

namespace AudLang

open AudLang.Parser

variable {l m : Level} {x : Lexeme} {c n target : Node} {rest : List Token}
  {args es ns ps : List Node}

/-! ## How tightly tokens bind -/

namespace Parser.Level

/-- How tightly the operators of a level bind. -/
def rank : Level → Nat
  | disjunction => 1
  | conjunction => 2
  | comparison => 3
  | sum => 4
  | product => 5

lemma rank_of_tighter (h : l.tighter? = some m) : m.rank = l.rank + 1 := by
  cases l <;> cases h <;> rfl

lemma exists_tighter (h : l.rank < m.rank) : ∃ l', l.tighter? = some l' := by
  cases l with
  | product => cases m <;> simp [rank] at h
  | _ => exact ⟨_, rfl⟩

lemma eq_of_rank_eq (h : l.rank = m.rank) : l = m := by
  cases l <;> cases m <;> simp_all [rank]

end Parser.Level

/-- How tightly a kind of token binds the expression in front of it.  What does not go on with an
expression does not bind it at all. -/
def Kind.binding : Kind → Nat
  | .symbol .or_ => 1
  | .symbol .and_ => 2
  | .symbol .eq | .symbol .ne | .symbol .lt | .symbol .le | .symbol .gt | .symbol .ge => 3
  | .symbol .plus | .symbol .minus => 4
  | .symbol .times | .symbol .divide => 5
  | .symbol .dot | .symbol .lparen => 7
  | _ => 0

/-- The operators of a level are those that bind as tightly as it does. -/
lemma Parser.Level.op?_eq_none {k : Kind} (h : k.binding ≠ l.rank) : l.op? k = none := by
  unfold Level.op?
  split <;> first | rfl | exact absurd rfl h

namespace BinaryOp

/-- The level of an operator. -/
def level : BinaryOp → Level
  | or => .disjunction
  | and => .conjunction
  | equals | notEquals | less | lessOrEqual | greater | greaterOrEqual => .comparison
  | add | subtract => .sum
  | multiply | divide => .product

lemma rank_level (op : BinaryOp) : op.level.rank = op.precedence := by cases op <;> rfl

lemma op?_level (op : BinaryOp) : op.level.op? (.symbol op.mark) = some op := by cases op <;> rfl

lemma binding_mark (op : BinaryOp) : (Kind.symbol op.mark).binding = op.level.rank := by
  cases op <;> rfl

lemma isAssociative_iff (op : BinaryOp) : op.isAssociative = true ↔ op.level ≠ .comparison := by
  cases op <;> decide

end BinaryOp

namespace Parser

/-! ## Tokens that spell lexemes -/

/-- Tokens that spell a first lexeme and then others. -/
lemma lexemes_cons {us : List Token} {xs : List Lexeme} (h : us.map Token.lexeme = x :: xs) :
    ∃ q us', us = ⟨x, q⟩ :: us' ∧ us'.map Token.lexeme = xs := by
  obtain ⟨⟨_, q⟩, us', rfl, rfl, hus'⟩ := List.map_eq_cons_iff.1 h
  exact ⟨q, us', rfl, hus'⟩

lemma lexemes_singleton {us : List Token} (h : us.map Token.lexeme = [x]) : ∃ q, us = [⟨x, q⟩] := by
  obtain ⟨q, us', rfl, hnil⟩ := lexemes_cons h
  exact ⟨q, by rw [List.map_eq_nil_iff.1 hnil]⟩

/-- Tokens that spell lexemes and then a last one. -/
lemma lexemes_concat {us : List Token} {xs : List Lexeme} (h : us.map Token.lexeme = xs ++ [x]) :
    ∃ vs q, us = vs ++ [⟨x, q⟩] ∧ vs.map Token.lexeme = xs := by
  obtain ⟨vs, ws, rfl, hvs, hws⟩ := List.map_eq_append_iff.1 h
  obtain ⟨q, rfl⟩ := lexemes_singleton hws
  exact ⟨vs, q, rfl, hvs⟩

/-! ## Types -/

variable {end_ : Position}

lemma exists_type (h : n.IsType) : ∀ {us : List Token}, us.map Token.lexeme = n.lexemes →
      ∃ n', (∀ rest, Stating (.ok end_) (.type n') (us ++ rest) rest) ∧ n'.bare = n.bare := by
  induction h with
  | @simple s k hk =>
    intro us hus
    rw [Node.lexemes, Lexeme.word_spelling] at hus
    obtain ⟨q, rfl⟩ := lexemes_singleton hus
    exact ⟨.type ⟨q, q⟩ k.spelling, fun rest => .simpleType (t := ⟨_, q⟩) rfl hk, rfl⟩
  | @list s e h ih =>
    intro us hus
    rw [Node.lexemes, Lexeme.word_spelling] at hus
    obtain ⟨q, us₁, rfl, hus₁⟩ := lexemes_cons hus
    obtain ⟨q₁, us₂, rfl, hus₂⟩ := lexemes_cons hus₁
    obtain ⟨vs, q₂, rfl, hvs⟩ := lexemes_concat hus₂
    obtain ⟨e', he', hbare⟩ := ih hvs
    refine ⟨.listType ⟨q, q₂⟩ Keyword.list.spelling e', fun rest =>
      ?_, by simp only [Node.bare, hbare]⟩
    rw [List.cons_append, List.cons_append, List.append_assoc]
    exact .listType (t := ⟨_, q⟩) (v := ⟨_, q₂⟩) rfl rfl (he' _) rfl

/-! ## Expressions as operands -/

section

variable (us : List Token) (e : Node)

/-- The tokens are read as the expression where an operand of the level is expected. -/
def AsOperand (l : Level) : Prop :=
  ∀ rest, (kind rest).binding ≤ l.rank → Reading (.operand l e) (us ++ rest) rest

/-- The tokens are read as the expression where the level is expected. -/
def AsWhole (l : Level) : Prop :=
  ∀ rest, (kind rest).binding < l.rank → Reading (.level l e) (us ++ rest) rest

/-- Where the level is expected, the tokens are read as its first operand, whatever follows of
it. -/
def AsFirst (l : Level) : Prop :=
  ∀ rest n r, (kind rest).binding ≤ l.rank → Reading (.chain l e n) rest r →
    Reading (.level l n) (us ++ rest) r

/-- Where a factor is expected, the tokens are read as the expression, whatever members follow. -/
structure AsFactor : Prop where
  noMinus : ∀ rest, kind (us ++ rest) ≠ .symbol .minus
  reads : ∀ rest n r, kind rest ≠ .symbol .lparen → Reading (.members e n) rest r →
    Reading (.factor n) (us ++ rest) r

/-- What is read from the tokens of an expression that binds this tightly. -/
structure Readable (strength : Nat) : Prop where
  asOperand : ∀ l, l.rank < strength → AsOperand us e l
  asWhole : ∀ l, l.rank ≤ strength → AsWhole us e l
  asFirst : ∀ l, l.rank ≤ strength → (l = .comparison → l.rank < strength) → AsFirst us e l
  asFactor : 7 ≤ strength → AsFactor us e

end

variable {us : List Token} {e : Node}

lemma AsOperand.asFirst (h : AsOperand us e l) : AsFirst us e l :=
  fun rest _ _ hrest hchain => .level (h rest hrest) hchain

lemma AsFirst.asWhole (h : AsFirst us e l) : AsWhole us e l :=
  fun rest hrest => h rest _ _ (Nat.le_of_lt hrest)
    (.chainEnd (Level.op?_eq_none (Nat.ne_of_lt hrest)))

lemma AsWhole.asOperand (h : AsWhole us e m) (hm : l.tighter? = some m) :
    AsOperand us e l := by
  intro rest hrest
  refine .operand hm (h rest ?_)
  rw [Level.rank_of_tighter hm]
  omega

/-- An expression of one level is an operand of all looser ones. -/
lemma AsWhole.asOperand_of_lt (h : AsWhole us e m) :
    ∀ {l : Level}, l.rank < m.rank → AsOperand us e l := by
  intro l hl
  induction hd : m.rank - l.rank generalizing l with
  | zero => omega
  | succ d ih =>
    obtain ⟨l', hl'⟩ := Level.exists_tighter hl
    have hrank := Level.rank_of_tighter hl'
    by_cases hlt : l'.rank < m.rank
    · exact (ih hlt (by omega)).asFirst.asWhole.asOperand hl'
    · obtain rfl := Level.eq_of_rank_eq (l := l') (m := m) (by omega)
      exact h.asOperand hl'

namespace Readable

variable {s s' : Nat}

lemma mono (h : Readable us e s) (hs : s' ≤ s) : Readable us e s' where
  asOperand l hl := h.asOperand l (by omega)
  asWhole l hl := h.asWhole l (by omega)
  asFirst l hl hc := h.asFirst l (by omega) fun heq => Nat.lt_of_lt_of_le (hc heq) hs
  asFactor h7 := h.asFactor (by omega)

lemma of_level (hfirst : l ≠ .comparison → AsFirst us e l) (hwhole : AsWhole us e l) :
    Readable us e l.rank where
  asOperand l' hl' := hwhole.asOperand_of_lt hl'
  asWhole l' hl' := by
    by_cases hlt : l'.rank < l.rank
    · exact (hwhole.asOperand_of_lt hlt).asFirst.asWhole
    · rwa [Level.eq_of_rank_eq (l := l') (m := l) (by omega)]
  asFirst l' hl' hc := by
    by_cases hlt : l'.rank < l.rank
    · exact (hwhole.asOperand_of_lt hlt).asFirst
    · obtain rfl := Level.eq_of_rank_eq (l := l') (m := l) (by omega)
      exact hfirst fun heq => hlt (hc heq)
  asFactor h7 := by cases l <;> simp [Level.rank] at h7

lemma of_unary (hunary : ∀ rest, (kind rest).binding < 6 → Reading (.unary e) (us ++ rest) rest)
    (hs : s ≤ 6 ∨ AsFactor us e) : Readable us e s := by
  have hproduct : AsOperand us e .product := fun rest hrest =>
    .tightest rfl (hunary rest (by simp only [Level.rank] at hrest; omega))
  have hoperand : ∀ l, AsOperand us e l := by
    intro l
    by_cases hlt : l.rank < Level.product.rank
    · exact hproduct.asFirst.asWhole.asOperand_of_lt hlt
    · have hrank : l.rank = Level.product.rank := by cases l <;> simp_all [Level.rank]
      rwa [Level.eq_of_rank_eq hrank]
  exact {
    asOperand := fun l _ => hoperand l
    asWhole := fun l _ => (hoperand l).asFirst.asWhole
    asFirst := fun l _ _ => (hoperand l).asFirst
    asFactor := fun h7 => hs.resolve_left (by omega) }

/-- What holds together by itself is read everywhere. -/
lemma of_factor (h : AsFactor us e) : Readable us e s := by
  refine of_unary (fun rest hrest => .unary (h.noMinus rest)
    (h.reads rest _ _ ?_ (.membersEnd ?_))) (.inr h)
  · intro heq
    simp [heq, Kind.binding] at hrest
  · intro heq
    simp [heq, Kind.binding] at hrest

/-- Parentheses make an expression hold together. -/
lemma group (h : Readable us e s) (hs : 1 ≤ s) (q q₁ : Position) :
    Readable (⟨.symbol .lparen, q⟩ :: (us ++ [⟨.symbol .rparen, q₁⟩])) e s' := by
  refine of_factor ⟨fun _ => nofun, fun rest n r _ hmembers => ?_⟩
  refine .factor ?_ hmembers
  rw [List.cons_append, List.append_assoc]
  exact .group rfl (h.asWhole .disjunction hs _ Nat.zero_lt_one) rfl

end Readable

/-- Whatever spells the expression is read as it, up to places. -/
def IsReadable (e : Node) : Prop :=
  ∀ us : List Token, us.map Token.lexeme = e.lexemes →
    ∃ e', Readable us e' e.precedence ∧ e'.bare = e.bare

lemma precedence_pos (e : Node) : 1 ≤ e.precedence := by
  cases e with
  | binary s op l r => cases op <;> simp [Node.precedence, BinaryOp.precedence]
  | _ => simp [Node.precedence]

/-- An operand binds as tightly as it has to, if need be in parentheses. -/
lemma IsReadable.operand (h : IsReadable e) {least : Nat}
    (hus : us.map Token.lexeme = e.operand least) :
    ∃ e', Readable us e' least ∧ e'.bare = e.bare := by
  unfold Node.operand Lexeme.enclosed at hus
  split at hus
  · obtain ⟨q, us₁, rfl, hus₁⟩ := lexemes_cons hus
    obtain ⟨vs, q₁, rfl, hvs⟩ := lexemes_concat hus₁
    obtain ⟨e', he', hbare⟩ := h vs hvs
    exact ⟨e', he'.group (precedence_pos e) q q₁, hbare⟩
  · rename_i hle
    obtain ⟨e', he', hbare⟩ := h us hus
    exact ⟨e', he'.mono (by simpa using hle), hbare⟩

/-- An operator between two operands that bind tightly enough. -/
lemma readable_binary {op : BinaryOp} {ls rs : List Token} {left right : Node} (q : Position)
    (hleft : Readable ls left op.onLeft) (hright : Readable rs right op.onRight) :
    Readable (ls ++ ⟨.symbol op.mark, q⟩ :: rs) (binaryNode op left right) op.precedence := by
  have hrank := op.rank_level
  have hoperand : AsOperand rs right op.level :=
    hright.asOperand _ (by rw [BinaryOp.onRight]; omega)
  have hfirst : AsFirst ls left op.level := by
    refine hleft.asFirst _ ?_ fun heq => ?_
    · unfold BinaryOp.onLeft
      split <;> omega
    · have hnot : ¬ op.isAssociative = true := fun h => op.isAssociative_iff.1 h heq
      rw [BinaryOp.onLeft, if_neg hnot]
      omega
  have hmark : ∀ rest : List Token,
      (kind (⟨.symbol op.mark, q⟩ :: rs ++ rest)).binding ≤ op.level.rank :=
    fun rest => Nat.le_of_eq op.binding_mark
  rw [← hrank]
  refine .of_level (fun hl => ?_) ?_
  · -- the operators of the level that follow take the operation as their left operand
    intro rest n r hrest hchain
    rw [List.append_assoc]
    exact hfirst _ _ _ (hmark rest) (.chain op.op?_level hl (hoperand rest hrest) hchain)
  · intro rest hrest
    rw [List.append_assoc]
    refine hfirst _ _ _ (hmark rest) ?_
    by_cases hl : op.level = .comparison
    · rw [hl] at hoperand hrest ⊢
      have hop := op.op?_level
      rw [hl] at hop
      exact .comparison hop (hoperand rest (Nat.le_of_lt hrest))
    · exact .chain op.op?_level hl (hoperand rest (Nat.le_of_lt hrest))
        (.chainEnd (Level.op?_eq_none (Nat.ne_of_lt hrest)))

/-- Whatever expressions begin with is neither closing nor parting. -/
lemma kind_ne_of_opens {ys : List Lexeme} (h : ∃ x xs, ys = x :: xs ∧ x.opensExpression = true)
    (hus : us.map Token.lexeme = ys) {s : Symbol} (hs : s ≠ .minus ∧ s ≠ .lparen ∧ s ≠ .lbracket) :
    kind (us ++ rest) ≠ .symbol s := by
  obtain ⟨x, xs, rfl, hx⟩ := h
  obtain ⟨q, us₁, rfl, hus₁⟩ := lexemes_cons hus
  intro heq
  cases x <;> cases heq
  simp [Lexeme.opensExpression, hs] at hx

lemma binding_listedMore (hus : us.map Token.lexeme = Node.listedMore Lexeme.enclosed es)
    (hrest : (kind rest).binding = 0) : (kind (us ++ rest)).binding = 0 := by
  cases es with
  | nil =>
    obtain rfl := List.map_eq_nil_iff.1 hus
    exact hrest
  | cons e es =>
    rw [Node.listedMore] at hus
    obtain ⟨q, us₁, rfl, hus₁⟩ := lexemes_cons hus
    rfl

lemma exists_moreItems (h : ∀ e ∈ es, IsReadable e) :
    ∀ {us : List Token}, us.map Token.lexeme = Node.listedMore Lexeme.enclosed es →
      ∃ es', (∀ rest, (kind rest).binding = 0 → kind rest ≠ .symbol .comma →
        Reading (.moreItems es') (us ++ rest) rest) ∧ Node.bares es' = Node.bares es := by
  induction es with
  | nil =>
    intro us hus
    obtain rfl := List.map_eq_nil_iff.1 hus
    exact ⟨[], fun rest _ hk => .itemsEnd hk, rfl⟩
  | cons e es ih =>
    intro us hus
    obtain ⟨he, hes⟩ := List.forall_mem_cons.1 h
    rw [Node.listedMore] at hus
    obtain ⟨q, us₁, rfl, hus₁⟩ := lexemes_cons hus
    obtain ⟨vs, ws, rfl, hvs, hws⟩ := List.map_eq_append_iff.1 hus₁
    obtain ⟨e', he', hbare⟩ := he vs hvs
    obtain ⟨es', hes', hbares⟩ := ih hes hws
    refine ⟨e' :: es', fun rest h0 hk => ?_, by rw [Node.bares, hbare, hbares, Node.bares]⟩
    rw [List.cons_append, List.append_assoc]
    have hbinding := binding_listedMore hws h0
    exact .moreItems rfl (he'.asWhole .disjunction (precedence_pos e) _
      (hbinding ▸ Nat.zero_lt_one))
      (hes' rest h0 hk)

lemma exists_items (h : ∀ e ∈ es, IsReadable e ∧ e.IsExpression)
    (hus : us.map Token.lexeme = Node.listed Lexeme.enclosed es) :
    ∃ es', (∀ closing q rest, closing = .rparen ∨ closing = .rbracket →
      Reading (.items closing es') (us ++ ⟨.symbol closing, q⟩ :: rest)
        (⟨.symbol closing, q⟩ :: rest)) ∧
        Node.bares es' = Node.bares es := by
  cases es with
  | nil =>
    obtain rfl := List.map_eq_nil_iff.1 hus
    exact ⟨[], fun closing q rest _ => .noItems rfl, rfl⟩
  | cons e es =>
    obtain ⟨⟨he, hexpression⟩, hes⟩ := List.forall_mem_cons.1 h
    rw [Node.listed] at hus
    obtain ⟨vs, ws, rfl, hvs, hws⟩ := List.map_eq_append_iff.1 hus
    obtain ⟨e', he', hbare⟩ := he vs hvs
    obtain ⟨es', hes', hbares⟩ := exists_moreItems (fun e h => (hes e h).1) hws
    refine ⟨e' :: es', fun closing q rest hclosing =>
      ?_, by rw [Node.bares, hbare, hbares, Node.bares]⟩
    have h0 : (kind (⟨.symbol closing, q⟩ :: rest)).binding = 0 := by
      rcases hclosing with rfl | rfl <;> rfl
    rw [List.append_assoc]
    refine .items (kind_ne_of_opens hexpression.opens hvs ?_)
      (he'.asWhole .disjunction (precedence_pos e) _ (binding_listedMore hws h0 ▸ Nat.zero_lt_one))
      (hes' _ h0 ?_)
    · rcases hclosing with rfl | rfl <;> decide
    · rcases hclosing with rfl | rfl <;> exact fun heq => by cases heq

lemma exists_arguments (h : ∀ e ∈ es, IsReadable e ∧ e.IsExpression)
    (hus : us.map Token.lexeme = .symbol
      .lparen :: (Node.listed Lexeme.enclosed es ++ [.symbol .rparen])) :
    (∀ rest, kind (us ++ rest) = .symbol .lparen) ∧
      ∃ es' q, (∀ rest, Reading (.arguments es' q) (us ++ rest) rest) ∧
        Node.bares es' = Node.bares es := by
  obtain ⟨q, us₁, rfl, hus₁⟩ := lexemes_cons hus
  obtain ⟨vs, q₁, rfl, hvs⟩ := lexemes_concat hus₁
  obtain ⟨es', hes', hbares⟩ := exists_items h hvs
  refine ⟨fun rest => rfl, es', q₁, fun rest => ?_, hbares⟩
  rw [List.cons_append, List.append_assoc]
  exact .arguments rfl (hes' .rparen q₁ rest (.inl rfl)) rfl

lemma readable_literal {q : Position} {strength : Nat} (h : literal? q x = some n) :
    Readable [⟨x, q⟩] n strength := by
  refine .of_factor ⟨fun rest heq => ?_, fun rest m r _ hmembers =>
    .factor (.literal h) hmembers⟩
  have hx : x.kind = .symbol .minus := heq
  cases x <;> cases hx
  cases h

lemma isReadable_literal (hx : e.lexemes = [x])
    (h : ∀ q, ∃ e', literal? q x = some e' ∧ e'.bare = e.bare) : IsReadable e := by
  intro us hus
  rw [hx] at hus
  obtain ⟨q, rfl⟩ := lexemes_singleton hus
  obtain ⟨e', he', hbare⟩ := h q
  exact ⟨e', readable_literal he', hbare⟩

lemma isReadable_name (s : Span) (id : String) : IsReadable (.name s id) := by
  intro us hus
  obtain ⟨q, rfl⟩ := lexemes_singleton hus
  refine ⟨.name ⟨q, q⟩ id, .of_factor ⟨fun _ => nofun, ?_⟩, rfl⟩
  intro rest n r hk hmembers
  exact .factor (.name rfl hk) hmembers

lemma isReadable_list (s : Span) (h : ∀ e ∈ es, IsReadable e ∧ e.IsExpression) :
    IsReadable (.list s es) := by
  intro us hus
  rw [Node.lexemes] at hus
  obtain ⟨q, us₁, rfl, hus₁⟩ := lexemes_cons hus
  obtain ⟨vs, q₁, rfl, hvs⟩ := lexemes_concat hus₁
  obtain ⟨es', hes', hbares⟩ := exists_items h hvs
  refine ⟨.list ⟨q, q₁⟩ es',
    .of_factor ⟨fun _ h => (by cases h), ?_⟩, by rw [Node.bare, hbares, Node.bare]⟩
  intro rest n r hk hmembers
  rw [List.cons_append, List.append_assoc]
  exact .factor (.list rfl (hes' .rbracket q₁ rest (.inr rfl)) rfl) hmembers

lemma isReadable_binary {left right : Node} (s : Span) (op : BinaryOp) (hl : IsReadable left)
    (hr : IsReadable right) : IsReadable (.binary s op left right) := by
  intro us hus
  rw [Node.lexemes] at hus
  obtain ⟨vs, us₁, rfl, hvs, hus₁⟩ := List.map_eq_append_iff.1 hus
  obtain ⟨q, ws, rfl, hws⟩ := lexemes_cons hus₁
  obtain ⟨left', hleft', hbare⟩ := hl.operand hvs
  obtain ⟨right', hright', hbare'⟩ := hr.operand hws
  refine ⟨_, readable_binary q hleft' hright', ?_⟩
  rw [binaryNode, Node.bare, hbare, hbare', Node.bare]

lemma isReadable_negate (s : Span) (h : IsReadable e) : IsReadable (.negate s e) := by
  intro us hus
  rw [Node.lexemes] at hus
  obtain ⟨q, us₁, rfl, hus₁⟩ := lexemes_cons hus
  obtain ⟨e', he', hbare⟩ := h.operand hus₁
  refine ⟨.negate ⟨q, e'.stop⟩ e', .of_unary (fun rest hrest => ?_) (.inl (Nat.le_refl _)),
    by rw [Node.bare, hbare, Node.bare]⟩
  refine .minus (t := ⟨_, q⟩) rfl
    ((he'.asFactor (Nat.le_refl _)).reads rest _ _ ?_ (.membersEnd ?_))
  · intro heq
    simp [heq, Kind.binding] at hrest
  · intro heq
    simp [heq, Kind.binding] at hrest

lemma isReadable_member {object : Node} (s : Span) (field : String) (h : IsReadable object) :
    IsReadable (.member s object field) := by
  intro us hus
  rw [Node.lexemes] at hus
  obtain ⟨vs, us₁, rfl, hvs, hus₁⟩ := List.map_eq_append_iff.1 hus
  obtain ⟨q, us₂, rfl, hus₂⟩ := lexemes_cons hus₁
  obtain ⟨q₁, rfl⟩ := lexemes_singleton hus₂
  obtain ⟨object', hobject, hbare⟩ := h.operand hvs
  have hfactor := hobject.asFactor (Nat.le_refl _)
  refine ⟨.member ⟨object'.start, q₁⟩ object' field, .of_factor ⟨fun rest => ?_, ?_⟩,
    by rw [Node.bare, hbare, Node.bare]⟩
  · rw [List.append_assoc]
    exact hfactor.noMinus _
  · intro rest n r hk hmembers
    rw [List.append_assoc]
    exact hfactor.reads _ _ _ (fun h => by cases h) (.property rfl rfl hk hmembers)

lemma isReadable_call (s t : Span) (id : String) (h : ∀ a ∈ args, IsReadable a ∧ a.IsExpression) :
    IsReadable (.call s (.name t id) args) := by
  intro us hus
  rw [Node.lexemes] at hus
  obtain ⟨vs, ws, rfl, hvs, hws⟩ := List.map_eq_append_iff.1 hus
  obtain ⟨q, rfl⟩ := lexemes_singleton hvs
  obtain ⟨hopen, args', q₁, hargs', hbares⟩ := exists_arguments h hws
  refine ⟨.call ⟨q, q₁⟩ (.name ⟨q, q⟩ id) args', .of_factor ⟨fun _ h => (by cases h), ?_⟩,
    by simp only [Node.bare, hbares]⟩
  intro rest n r hk hmembers
  exact .factor (.call rfl (hopen rest) (hargs' rest)) hmembers

lemma isReadable_method {object : Node} (s t : Span) (field : String) (ho : IsReadable object)
    (h : ∀ a ∈ args, IsReadable a ∧ a.IsExpression) :
    IsReadable (.call s (.member t object field) args) := by
  intro us hus
  rw [Node.lexemes, Node.lexemes] at hus
  obtain ⟨vs, ws, rfl, hvs, hws⟩ := List.map_eq_append_iff.1 hus
  obtain ⟨os, us₁, rfl, hos, hus₁⟩ := List.map_eq_append_iff.1 hvs
  obtain ⟨q, us₂, rfl, hus₂⟩ := lexemes_cons hus₁
  obtain ⟨q₁, rfl⟩ := lexemes_singleton hus₂
  obtain ⟨hopen, args', q₂, hargs', hbares⟩ := exists_arguments h hws
  obtain ⟨object', hobject, hbare⟩ := ho.operand hos
  have hfactor := hobject.asFactor (Nat.le_refl _)
  refine ⟨.call ⟨object'.start, q₂⟩ (.member ⟨object'.start, q₁⟩ object' field) args',
    .of_factor ⟨fun rest => ?_, ?_⟩, by simp only [Node.bare, hbare, hbares]⟩
  · rw [List.append_assoc, List.append_assoc]
    exact hfactor.noMinus _
  · intro rest n r hk hmembers
    rw [List.append_assoc, List.append_assoc]
    exact hfactor.reads _ _ _
      (fun h => by cases h) (.method rfl rfl (hopen rest) (hargs' rest) hmembers)

lemma isReadable_construct {k : Keyword} (s : Span) (hk : isConstructor k = true)
    (h : ∀ a ∈ args, IsReadable a ∧ a.IsExpression) :
    IsReadable (.construct s k.spelling args) := by
  intro us hus
  rw [Node.lexemes, Lexeme.word_spelling] at hus
  obtain ⟨q, ws, rfl, hws⟩ := lexemes_cons hus
  obtain ⟨hopen, args', q₁, hargs', hbares⟩ := exists_arguments h hws
  refine ⟨.construct ⟨q, q₁⟩ k.spelling args', .of_factor ⟨fun _ h => (by cases h), ?_⟩,
    by rw [Node.bare, hbares, Node.bare]⟩
  intro rest n r _ hmembers
  exact .factor (.construct rfl hk (hopen rest) (hargs' rest)) hmembers

lemma isReadable {e : Node} (h : e.IsExpression) : IsReadable e := by
  induction h with
  | @int s v h =>
    refine isReadable_literal rfl fun q => ⟨_, rfl, ?_⟩
    rw [Node.bare, Int.toNat_of_nonneg h, Node.bare]
  | float s v => exact isReadable_literal rfl fun q => ⟨_, rfl, rfl⟩
  | string s v => exact isReadable_literal rfl fun q => ⟨_, rfl, rfl⟩
  | bool s v => cases v <;> exact isReadable_literal rfl fun q => ⟨_, rfl, rfl⟩
  | null s => exact isReadable_literal rfl fun q => ⟨_, rfl, rfl⟩
  | name s id => exact isReadable_name s id
  | list s h ih => exact isReadable_list s fun e he => ⟨ih e he, h e he⟩
  | binary s op hl hr ihl ihr => exact isReadable_binary s op ihl ihr
  | negate s h ih => exact isReadable_negate s ih
  | member s field h ih => exact isReadable_member s field ih
  | call s t id h ih => exact isReadable_call s t id fun a ha => ⟨ih a ha, h a ha⟩
  | method s t field ho h iho ih =>
    exact isReadable_method s t field iho fun a ha => ⟨ih a ha, h a ha⟩
  | construct s hk h ih => exact isReadable_construct s hk fun a ha => ⟨ih a ha, h a ha⟩

lemma exists_expression (h : e.IsExpression) (hus : us.map Token.lexeme = e.lexemes) :
    ∃ e', (∀ rest, (kind rest).binding = 0 → Reading (.level .disjunction e') (us ++ rest) rest) ∧
      e'.bare = e.bare := by
  obtain ⟨e', he', hbare⟩ := isReadable h us hus
  refine ⟨e', fun rest h0 => he'.asWhole .disjunction (precedence_pos e) rest ?_, hbare⟩
  rw [h0]
  exact Nat.zero_lt_one

/-! ## Statements -/

/-- Whatever spells the statement is read as it, up to places, unless another branch follows. -/
def IsReadableStatement (end_ : Position) (n : Node) : Prop :=
  ∀ us : List Token, us.map Token.lexeme = n.lexemes →
    ∃ n', (∀ rest, kind rest ≠ .keyword .else_ →
      Stating (.ok end_) (.statement n') (us ++ rest) rest) ∧
      n'.bare = n.bare

lemma isTarget_bare (n : Node) : isTarget n.bare = isTarget n := by cases n <;> rfl

/-- A call stands for itself. -/
lemma bare_standing {t : Span} {close : Position} (h : c.bare = (Node.call t target args).bare) :
    (standing close c).bare = .callStatement default c.bare := by
  cases c with
  | call => rfl
  | _ => simp [Node.bare] at h

/-- A type other than the one of no value begins as declarations do. -/
lemma opensDeclaration_of_isType {type : Node} (h : type.IsType)
    (hv : ∀ t, type ≠ .type t Keyword.void.spelling) (hus : us.map Token.lexeme = type.lexemes) :
    ∃ k, opensDeclaration k = true ∧ ∀ rest, kind (us ++ rest) = .keyword k := by
  cases h with
  | @simple s k hk =>
    rw [Node.lexemes, Lexeme.word_spelling] at hus
    obtain ⟨q, rfl⟩ := lexemes_singleton hus
    refine ⟨k, ?_, fun rest => rfl⟩
    cases k <;> first | rfl | exact absurd hk (by decide) | exact absurd rfl (hv s)
  | list s h =>
    rw [Node.lexemes, Lexeme.word_spelling] at hus
    obtain ⟨q, us₁, rfl, hus₁⟩ := lexemes_cons hus
    exact ⟨.list, rfl, fun rest => rfl⟩

lemma isReadableStatement_declare {type value : Node} (s : Span) (id : String) (ht : type.IsType)
    (hv : ∀ t, type ≠ .type t Keyword.void.spelling) (he : value.IsExpression) :
    IsReadableStatement end_ (.declare s type id value) := by
  intro us hus
  rw [Node.lexemes] at hus
  obtain ⟨ts, us₁, rfl, hts, hus₁⟩ := List.map_eq_append_iff.1 hus
  obtain ⟨q, us₂, rfl, hus₂⟩ := lexemes_cons hus₁
  obtain ⟨q₁, us₃, rfl, hus₃⟩ := lexemes_cons hus₂
  obtain ⟨vs, q₂, rfl, hvs⟩ := lexemes_concat hus₃
  obtain ⟨k, hopens, hk⟩ := opensDeclaration_of_isType ht hv hts
  obtain ⟨type', htype', hbare⟩ := exists_type ht hts
  obtain ⟨value', hvalue', hbare'⟩ := exists_expression he hvs
  refine ⟨.declare ⟨type'.start, q₂⟩ type' id value', fun rest _ => ?_,
    by rw [Node.bare, hbare, hbare', Node.bare]⟩
  rw [List.append_assoc, List.cons_append, List.cons_append, List.append_assoc]
  exact .declare (t := ⟨.identifier id, q⟩) (v := ⟨_, q₂⟩) (hk _) hopens (htype' _) rfl rfl
    (hvalue' _ rfl)
    rfl (reach_ok _)

lemma operand_of_opensWithName {least : Nat} (hn : e.opensWithName = true) (hleast : least ≤ 7) :
    e.operand least = e.lexemes := by
  have hp : e.precedence = 7 := by cases e <;> first | rfl | cases hn
  rw [Node.operand, hp, Lexeme.enclosed, if_neg (by simpa using hleast)]

/-- What opens with a name is written with the name in front. -/
lemma exists_identifier (h : e.IsExpression) (hn : e.opensWithName = true) :
    ∃ id xs, e.lexemes = .identifier id :: xs := by
  induction h with
  | name s id => exact ⟨id, [], rfl⟩
  | call s t id h ih => exact ⟨id, _, rfl⟩
  | @member s object field h ih =>
    have hn' : object.opensWithName = true := hn
    obtain ⟨id, xs, hxs⟩ := ih hn'
    refine ⟨id, xs ++ [.symbol .dot, .identifier field], ?_⟩
    rw [Node.lexemes, ← Node.operand, operand_of_opensWithName hn' (Nat.le_refl _), hxs,
      List.cons_append]
  | @method s t object field args ho h iho ih =>
    have hn' : object.opensWithName = true := hn
    obtain ⟨id, xs, hxs⟩ := iho hn'
    rw [Node.lexemes, Node.lexemes, ← Node.operand, operand_of_opensWithName hn' (Nat.le_refl _),
      hxs]
    exact ⟨id, _, rfl⟩
  | _ => cases hn

lemma kind_of_opensWithName (h : e.IsExpression) (hn : e.opensWithName = true)
    (hus : us.map Token.lexeme = e.lexemes) (rest : List Token) :
    kind (us ++ rest) = .identifier := by
  obtain ⟨id, xs, hxs⟩ := exists_identifier h hn
  obtain ⟨q, us₁, rfl, _⟩ := lexemes_cons (hus.trans hxs)
  rfl

lemma isReadableStatement_assign {value : Node} (s : Span) (ht : target.IsExpression)
    (hn : target.opensWithName = true) (htarget : isTarget target = true)
    (he : value.IsExpression) : IsReadableStatement end_ (.assign s target value) := by
  intro us hus
  rw [Node.lexemes] at hus
  obtain ⟨ts, us₁, rfl, hts, hus₁⟩ := List.map_eq_append_iff.1 hus
  obtain ⟨q, us₂, rfl, hus₂⟩ := lexemes_cons hus₁
  obtain ⟨vs, q₁, rfl, hvs⟩ := lexemes_concat hus₂
  obtain ⟨target', htarget', hbare⟩ := exists_expression ht hts
  obtain ⟨value', hvalue', hbare'⟩ := exists_expression he hvs
  have hist : isTarget target' = true := by
    rw [← isTarget_bare, hbare, isTarget_bare, htarget]
  refine ⟨.assign ⟨target'.start, q₁⟩ target' value', fun rest _ => ?_,
    by rw [Node.bare, hbare, hbare', Node.bare]⟩
  rw [List.append_assoc, List.cons_append, List.append_assoc]
  exact .assign (u := ⟨_, q₁⟩) (kind_of_opensWithName ht hn hts _) (htarget' _ rfl) rfl hist
    (hvalue' _ rfl)
    rfl (reach_ok _)

lemma isReadableStatement_call (s t : Span) (hc : (Node.call t target args).IsExpression)
    (hn : target.opensWithName = true) :
    IsReadableStatement end_ (.callStatement s (.call t target args)) := by
  intro us hus
  rw [Node.lexemes] at hus
  obtain ⟨cs, q, rfl, hcs⟩ := lexemes_concat hus
  obtain ⟨c', hc', hbare⟩ := exists_expression hc hcs
  refine ⟨standing q c', fun rest _ => ?_, by rw [bare_standing hbare, hbare]; rfl⟩
  rw [List.append_assoc]
  exact .standing (u := ⟨_, q⟩) (kind_of_opensWithName hc hn hcs _) (hc' _ rfl) rfl (reach_ok _)

lemma isReadableStatement_expression (s : Span) (he : e.IsExpression) :
    IsReadableStatement end_ (.expressionStatement s e) := by
  intro us hus
  rw [Node.lexemes, Lexeme.enclosed, if_pos rfl, List.cons_append, List.append_assoc] at hus
  obtain ⟨q, us₁, rfl, hus₁⟩ := lexemes_cons hus
  obtain ⟨es, us₂, rfl, hes, hus₂⟩ := List.map_eq_append_iff.1 hus₁
  obtain ⟨q₁, us₃, rfl, hus₃⟩ := lexemes_cons hus₂
  obtain ⟨q₂, rfl⟩ := lexemes_singleton hus₃
  obtain ⟨e', he', hbare⟩ := isReadable he es hes
  refine ⟨.expressionStatement ⟨e'.start, q₂⟩ e', fun rest _ =>
    ?_, by rw [Node.bare, hbare, Node.bare]⟩
  have hgroup : Readable _ e' 7 := he'.group (precedence_pos e) q q₁
  have hwhole := hgroup.asWhole .disjunction (by decide) (⟨.symbol .semicolon, q₂⟩ :: rest)
    Nat.zero_lt_one
  rw [List.cons_append, List.append_assoc] at hwhole ⊢
  exact .other rfl hwhole rfl (reach_ok _)

lemma isReadableStatement_giveBack (s : Span) :
    IsReadableStatement end_ (.giveBack s .missing) := by
  intro us hus
  rw [Node.lexemes, Node.lexemes, List.nil_append] at hus
  obtain ⟨q, us₁, rfl, hus₁⟩ := lexemes_cons hus
  obtain ⟨q₁, rfl⟩ := lexemes_singleton hus₁
  exact ⟨.giveBack ⟨q, q₁⟩ .missing, fun rest _ =>
    .giveBack (t := ⟨_, q⟩) (u := ⟨_, q₁⟩) rfl rfl (reach_ok _), rfl⟩

lemma isReadableStatement_giveBackValue (s : Span) (he : e.IsExpression) :
    IsReadableStatement end_ (.giveBack s e) := by
  intro us hus
  rw [Node.lexemes] at hus
  obtain ⟨q, us₁, rfl, hus₁⟩ := lexemes_cons hus
  obtain ⟨es, q₁, rfl, hes⟩ := lexemes_concat hus₁
  obtain ⟨e', he', hbare⟩ := exists_expression he hes
  refine ⟨.giveBack ⟨q, q₁⟩ e', fun rest _ => ?_, by rw [Node.bare, hbare, Node.bare]⟩
  rw [List.cons_append, List.append_assoc]
  exact .giveBackValue (t := ⟨_, q⟩) (u := ⟨_, q₁⟩) rfl (kind_ne_of_opens he.opens hes (by decide))
    (he' _ rfl) rfl (reach_ok _)

/-! ## Blocks -/

lemma exists_condition (he : e.IsExpression)
    (hus : us.map Token.lexeme = .symbol .lparen :: (e.lexemes ++ [.symbol .rparen])) :
    ∃ e', (∀ rest, Stating (.ok end_) (.condition e') (us ++ rest) rest) ∧ e'.bare = e.bare := by
  obtain ⟨q, us₁, rfl, hus₁⟩ := lexemes_cons hus
  obtain ⟨es, q₁, rfl, hes⟩ := lexemes_concat hus₁
  obtain ⟨e', he', hbare⟩ := exists_expression he hes
  refine ⟨e', fun rest => ?_, hbare⟩
  rw [List.cons_append, List.append_assoc]
  exact .condition rfl (he' _ rfl) rfl

/-- What begins a statement, or the end of what is read. -/
lemma kind_sequence (h : ∀ n ∈ ns, n.IsStatement)
    (hus : us.map Token.lexeme = Node.sequence Lexeme.enclosed ns)
    (hrest : kind rest ≠ .keyword .else_) : kind (us ++ rest) ≠ .keyword .else_ := by
  cases ns with
  | nil =>
    obtain rfl := List.map_eq_nil_iff.1 hus
    exact hrest
  | cons n ns =>
    obtain ⟨x, xs, hxs, _, hx⟩ := (List.forall_mem_cons.1 h).1.opens
    rw [Node.sequence, hxs, List.cons_append] at hus
    obtain ⟨q, us₁, rfl, _⟩ := lexemes_cons hus
    exact hx

lemma exists_statements (h : ∀ n ∈ ns, IsReadableStatement end_ n ∧ n.IsStatement) :
    ∀ {us : List Token}, us.map Token.lexeme = Node.sequence Lexeme.enclosed ns →
      ∃ ns', (∀ rest, kind rest = .symbol .rbrace →
        Stating (.ok end_) (.statements ns') (us ++ rest) rest) ∧
          Node.bares ns' = Node.bares ns := by
  induction ns with
  | nil =>
    intro us hus
    obtain rfl := List.map_eq_nil_iff.1 hus
    exact ⟨[], fun rest hk => .noStatements hk, rfl⟩
  | cons n ns ih =>
    intro us hus
    obtain ⟨⟨hn, hstatement⟩, hns⟩ := List.forall_mem_cons.1 h
    rw [Node.sequence] at hus
    obtain ⟨vs, ws, rfl, hvs, hws⟩ := List.map_eq_append_iff.1 hus
    obtain ⟨n', hn', hbare⟩ := hn vs hvs
    obtain ⟨ns', hns', hbares⟩ := ih hns hws
    refine ⟨n' :: ns', fun rest hk => ?_, by rw [Node.bares, hbare, hbares, Node.bares]⟩
    rw [List.append_assoc]
    refine .statements ?_ (hn' _ ?_) (hns' rest hk)
    · obtain ⟨x, xs, hxs, hx, _⟩ := hstatement.opens
      obtain ⟨q, us₁, rfl, _⟩ := lexemes_cons (hvs.trans hxs)
      exact hx
    · exact kind_sequence (fun n hn => (hns n hn).2) hws (by rw [hk]; decide)

lemma exists_block {b : Span} (h : ∀ n ∈ ns, IsReadableStatement end_ n ∧ n.IsStatement)
    (hus : us.map Token.lexeme = (Node.block b ns).lexemes) :
    ∃ body, (∀ rest, Stating (.ok end_) (.block body) (us ++ rest) rest) ∧
      body.bare = (Node.block b ns).bare := by
  rw [Node.lexemes] at hus
  obtain ⟨q, us₁, rfl, hus₁⟩ := lexemes_cons hus
  obtain ⟨vs, q₁, rfl, hvs⟩ := lexemes_concat hus₁
  obtain ⟨ns', hns', hbares⟩ := exists_statements h hvs
  refine ⟨.block ⟨q, q₁⟩ ns', fun rest => ?_, by rw [Node.bare, hbares, Node.bare]⟩
  rw [List.cons_append, List.append_assoc]
  exact .block (t := ⟨_, q⟩) (u := ⟨_, q₁⟩) rfl (hns' _ rfl) rfl (reach_ok _)

/-- The parentheses of a condition part it from what follows. -/
lemma condition_append (xs ys : List Lexeme) :
    Lexeme.symbol .lparen :: (xs ++ .symbol .rparen :: ys)
      = (Lexeme.symbol .lparen :: (xs ++ [.symbol .rparen])) ++ ys := by
  rw [List.cons_append, List.append_assoc, List.singleton_append]

lemma isReadableStatement_loop (s b : Span) (hc : c.IsExpression)
    (h : ∀ n ∈ ns, IsReadableStatement end_ n ∧ n.IsStatement) :
    IsReadableStatement end_ (.loop s c (.block b ns)) := by
  intro us hus
  rw [Node.lexemes, condition_append] at hus
  obtain ⟨q, us₁, rfl, hus₁⟩ := lexemes_cons hus
  obtain ⟨cs, bs, rfl, hcs, hbs⟩ := List.map_eq_append_iff.1 hus₁
  obtain ⟨c', hc', hbare⟩ := exists_condition hc hcs
  obtain ⟨body, hbody, hbare'⟩ := exists_block h hbs
  refine ⟨.loop ⟨q, body.stop⟩ c' body, fun rest _ => ?_, by simp only [Node.bare, hbare, hbare']⟩
  rw [List.cons_append, List.append_assoc]
  exact .loop (t := ⟨_, q⟩) rfl (hc' _) (hbody rest)

lemma isReadableStatement_branch (s b : Span) (hc : c.IsExpression)
    (h : ∀ n ∈ ns, IsReadableStatement end_ n ∧ n.IsStatement) :
    IsReadableStatement end_ (.branch s c (.block b ns) .missing) := by
  intro us hus
  rw [Node.lexemes, condition_append] at hus
  obtain ⟨q, us₁, rfl, hus₁⟩ := lexemes_cons hus
  obtain ⟨cs, us₂, rfl, hcs, hus₂⟩ := List.map_eq_append_iff.1 hus₁
  rw [Node.isPresent, if_neg Bool.false_ne_true, List.append_nil] at hus₂
  obtain ⟨c', hc', hbare⟩ := exists_condition hc hcs
  obtain ⟨body, hbody, hbare'⟩ := exists_block h hus₂
  refine ⟨.branch ⟨q, body.stop⟩ c' body .missing, fun rest hk => ?_,
    by simp only [Node.bare, hbare, hbare']⟩
  rw [List.cons_append, List.append_assoc]
  exact .branch (t := ⟨_, q⟩) rfl (hc' _) (hbody rest) hk

lemma isReadableStatement_branchElse {other : List Node} (s b b' : Span) (hc : c.IsExpression)
    (h : ∀ n ∈ ns, IsReadableStatement end_ n ∧ n.IsStatement)
    (ho : ∀ n ∈ other, IsReadableStatement end_ n ∧ n.IsStatement) :
    IsReadableStatement end_ (.branch s c (.block b ns) (.block b' other)) := by
  intro us hus
  rw [Node.lexemes, condition_append] at hus
  obtain ⟨q, us₁, rfl, hus₁⟩ := lexemes_cons hus
  obtain ⟨cs, us₂, rfl, hcs, hus₂⟩ := List.map_eq_append_iff.1 hus₁
  have hpresent : (Node.block b' other).isPresent = true := rfl
  rw [if_pos hpresent] at hus₂
  obtain ⟨bs, us₃, rfl, hbs, hus₃⟩ := List.map_eq_append_iff.1 hus₂
  obtain ⟨q₁, os, rfl, hos⟩ := lexemes_cons hus₃
  obtain ⟨c', hc', hbare⟩ := exists_condition hc hcs
  obtain ⟨body, hbody, hbare'⟩ := exists_block h hbs
  obtain ⟨other', hother, hbare''⟩ := exists_block ho hos
  refine ⟨.branch ⟨q, other'.stop⟩ c' body other', fun rest _ => ?_,
    by simp only [Node.bare, hbare, hbare', hbare'']⟩
  rw [List.cons_append, List.append_assoc, List.append_assoc]
  exact .branchElse (t := ⟨_, q⟩) (u := ⟨_, q₁⟩) rfl (hc' _) (hbody _) rfl (hother rest)

/-! ## Functions -/

lemma exists_parameter (h : n.IsParameter) (hus : us.map Token.lexeme = n.lexemes) :
    ∃ n', (∀ rest, Stating (.ok end_) (.parameter n') (us ++ rest) rest) ∧ n'.bare = n.bare := by
  obtain ⟨s, id, ht⟩ := h
  rw [Node.lexemes] at hus
  obtain ⟨ts, q, rfl, hts⟩ := lexemes_concat hus
  obtain ⟨type', htype', hbare⟩ := exists_type ht hts
  refine ⟨.parameter ⟨type'.start, q⟩ type' (.plain id), fun rest => ?_,
    by rw [Node.bare, hbare, Node.bare]⟩
  rw [List.append_assoc]
  exact .parameter (u := ⟨.identifier id, q⟩) (htype' _) rfl

lemma exists_moreParameters (h : ∀ p ∈ ps, p.IsParameter) :
    ∀ {us : List Token}, us.map Token.lexeme = Node.listedMore Lexeme.enclosed ps →
      ∃ ps', (∀ rest, kind rest ≠ .symbol .comma →
        Stating (.ok end_) (.moreParameters ps') (us ++ rest) rest) ∧
          Node.bares ps' = Node.bares ps := by
  induction ps with
  | nil =>
    intro us hus
    obtain rfl := List.map_eq_nil_iff.1 hus
    exact ⟨[], fun rest hk => .parametersEnd hk, rfl⟩
  | cons p ps ih =>
    intro us hus
    obtain ⟨hp, hps⟩ := List.forall_mem_cons.1 h
    rw [Node.listedMore] at hus
    obtain ⟨q, us₁, rfl, hus₁⟩ := lexemes_cons hus
    obtain ⟨vs, ws, rfl, hvs, hws⟩ := List.map_eq_append_iff.1 hus₁
    obtain ⟨p', hp', hbare⟩ := exists_parameter hp hvs
    obtain ⟨ps', hps', hbares⟩ := ih hps hws
    refine ⟨p' :: ps', fun rest hk => ?_, by rw [Node.bares, hbare, hbares, Node.bares]⟩
    rw [List.cons_append, List.append_assoc]
    exact .moreParameters rfl (hp' _) (hps' rest hk)

lemma exists_parameters (h : ∀ p ∈ ps, p.IsParameter)
    (hus : us.map Token.lexeme = Node.listed Lexeme.enclosed ps) :
    ∃ ps', (∀ rest, kind rest = .symbol .rparen →
      Stating (.ok end_) (.parameters ps') (us ++ rest) rest) ∧ Node.bares ps' = Node.bares ps := by
  cases ps with
  | nil =>
    obtain rfl := List.map_eq_nil_iff.1 hus
    exact ⟨[], fun rest hk => .noParameters hk, rfl⟩
  | cons p ps =>
    obtain ⟨hp, hps⟩ := List.forall_mem_cons.1 h
    rw [Node.listed] at hus
    obtain ⟨vs, ws, rfl, hvs, hws⟩ := List.map_eq_append_iff.1 hus
    obtain ⟨p', hp', hbare⟩ := exists_parameter hp hvs
    obtain ⟨ps', hps', hbares⟩ := exists_moreParameters hps hws
    refine ⟨p' :: ps', fun rest hk => ?_, by rw [Node.bares, hbare, hbares, Node.bares]⟩
    have hopen : kind (vs ++ (ws ++ rest)) ≠ .symbol .rparen := by
      obtain ⟨k, xs, hxs⟩ := hp.opens
      obtain ⟨q, us₁, rfl, _⟩ := lexemes_cons (hvs.trans hxs)
      exact fun h => by cases h
    rw [List.append_assoc]
    exact .parameters hopen (hp' _) (hps' rest (by rw [hk]; decide))

lemma isReadableStatement_define {returns : Node} (s b : Span) (id : String) (ht : returns.IsType)
    (hp : ∀ p ∈ ps, p.IsParameter) (h : ∀ n ∈ ns, IsReadableStatement end_ n ∧ n.IsStatement) :
    IsReadableStatement end_ (.define s returns id ps (.block b ns)) := by
  intro us hus
  rw [Node.lexemes] at hus
  obtain ⟨q, us₁, rfl, hus₁⟩ := lexemes_cons hus
  obtain ⟨ts, us₂, rfl, hts, hus₂⟩ := List.map_eq_append_iff.1 hus₁
  obtain ⟨q₁, us₃, rfl, hus₃⟩ := lexemes_cons hus₂
  obtain ⟨q₂, us₄, rfl, hus₄⟩ := lexemes_cons hus₃
  obtain ⟨vs, us₅, rfl, hvs, hus₅⟩ := List.map_eq_append_iff.1 hus₄
  obtain ⟨q₃, bs, rfl, hbs⟩ := lexemes_cons hus₅
  obtain ⟨returns', hreturns', hbare⟩ := exists_type ht hts
  obtain ⟨ps', hps', hbares⟩ := exists_parameters hp hvs
  obtain ⟨body, hbody, hbare'⟩ := exists_block h hbs
  refine ⟨.define ⟨q, body.stop⟩ returns' id ps' body, fun rest _ => ?_,
    by simp only [Node.bare, hbare, hbares, hbare']⟩
  rw [List.cons_append, List.append_assoc, List.cons_append, List.cons_append, List.append_assoc,
    List.cons_append]
  exact .define (t := ⟨_, q⟩) (u := ⟨.identifier id, q₁⟩) rfl (hreturns' _) rfl rfl (hps' _ rfl) rfl
    (hbody rest)

/-! ## Programs -/

lemma isReadableStatement (end_ : Position) (h : n.IsStatement) : IsReadableStatement end_ n := by
  induction h with
  | declare s id ht hv he => exact isReadableStatement_declare s id ht hv he
  | assign s t id he => exact isReadableStatement_assign s (.name t id) rfl rfl he
  | assignMember s t field ho hn he =>
    exact isReadableStatement_assign s (.member t field ho) hn rfl he
  | call s t hc hn => exact isReadableStatement_call s t hc hn
  | expression s he => exact isReadableStatement_expression s he
  | giveBack s => exact isReadableStatement_giveBack s
  | giveBackValue s he => exact isReadableStatement_giveBackValue s he
  | branch s b hc hb ih => exact isReadableStatement_branch s b hc fun n hn => ⟨ih n hn, hb n hn⟩
  | branchElse s b b' hc hb ho ih iho =>
    exact isReadableStatement_branchElse s b b' hc (fun n hn => ⟨ih n hn, hb n hn⟩)
      fun n hn => ⟨iho n hn, ho n hn⟩
  | loop s b hc hb ih => exact isReadableStatement_loop s b hc fun n hn => ⟨ih n hn, hb n hn⟩
  | define s b id ht hp hb ih =>
    exact isReadableStatement_define s b id ht hp fun n hn => ⟨ih n hn, hb n hn⟩

lemma exists_topLevel (end_ : Position) (h : ∀ n ∈ ns, n.IsStatement) :
    ∀ {us : List Token}, us.map Token.lexeme = Node.sequence Lexeme.enclosed ns →
      ∃ ns', Stating (.ok end_) (.topLevel ns') us [] ∧ Node.bares ns' = Node.bares ns := by
  induction ns with
  | nil =>
    intro us hus
    obtain rfl := List.map_eq_nil_iff.1 hus
    exact ⟨[], .finish, rfl⟩
  | cons n ns ih =>
    intro us hus
    obtain ⟨hn, hns⟩ := List.forall_mem_cons.1 h
    rw [Node.sequence] at hus
    obtain ⟨vs, ws, rfl, hvs, hws⟩ := List.map_eq_append_iff.1 hus
    obtain ⟨n', hn', hbare⟩ := isReadableStatement end_ hn vs hvs
    obtain ⟨ns', hns', hbares⟩ := ih hns hws
    refine ⟨n' :: ns', ?_, by rw [Node.bares, hbare, hbares, Node.bares]⟩
    have hk : kind (ws ++ []) ≠ .keyword .else_ := kind_sequence hns hws (fun h => by cases h)
    rw [List.append_nil] at hk
    obtain ⟨x, xs, hxs, _⟩ := hn.opens
    obtain ⟨q, us₁, rfl, _⟩ := lexemes_cons (hvs.trans hxs)
    exact .topLevel (hn' ws hk) hns'

end Parser

/-- Tokens that spell a program are read as this program, up to places. -/
theorem ofTokens_of_lexemes {program : Node} (h : program.IsProgram) {tokens : List Token}
    (ht : tokens.map Token.lexeme = program.lexemes) (end_ : Position) :
    ∃ program', Program.ofTokens ⟨tokens, .ok end_⟩ = .ok program' ∧
      program'.bare = program.bare := by
  obtain ⟨s, hns⟩ := h
  obtain ⟨ns', hns', hbares⟩ := exists_topLevel end_ hns ht
  refine ⟨.program ⟨(ns'.head?.map Node.start).getD end_, end_⟩ (definitionIndexes ns') ns', ?_, ?_⟩
  · rw [Program.ofTokens, Program.ofTokensCounted, reach_ok, result_bind rfl,
      result_bind hns'.isParsed]
    rfl
  · simp only [Node.bare, hbares, Node.definitionIndexes_congr hbares]

/-- A program with operands that need parentheses and others that do not:
`List<int> x = 1 - (2 - 3) - -(4 + 5) * 6; func void f(int a) { if (a < 2) { return; } else
{ x.get(a); } } ((x || y) && (x < 1) == true);`. -/
def Node.grouping : Node :=
  .program default [1]
    [.declare default (.listType default "List" (.type default "int")) "x"
       (.binary default .subtract
         (.binary default .subtract (.int default 1)
           (.binary default .subtract (.int default 2) (.int default 3)))
         (.binary default .multiply
           (.negate default (.binary default .add (.int default 4) (.int default 5)))
           (.int default 6))),
     .define default (.type default "void") "f"
       [.parameter default (.type default "int") (.plain "a")]
       (.block default [.branch default
         (.binary default .less (.name default "a") (.int default 2))
         (.block default [.giveBack default .missing])
         (.block default [.callStatement default
           (.call default (.member default (.name default "x") "get") [.name default "a"])])]),
     .expressionStatement default (.binary default .and
       (.binary default .or (.name default "x") (.name default "y"))
       (.binary default .equals (.binary default .less (.name default "x") (.int default 1))
         (.bool default true)))]

lemma Node.IsProgram.of_definitions {s : Span} {definitions : List Nat}
    (h : ∀ n ∈ ns, n.IsStatement)
    (hd : definitionIndexes ns = definitions) : (Node.program s definitions ns).IsProgram :=
  hd ▸ .mk s h

lemma Node.isProgram_grouping : grouping.IsProgram := by
  have hint : ∀ v : Nat, (Node.int default v).IsExpression :=
    fun v => .int default (Int.natCast_nonneg v)
  have hname : ∀ id, (Node.name default id).IsExpression := .name default
  refine .of_definitions (List.forall_mem_cons.2 ⟨?_, List.forall_mem_cons.2
    ⟨?_, List.forall_mem_singleton.2 ?_⟩⟩) rfl
  · refine .declare default "x" (.list default (.simple default (k := .int) rfl)) nofun ?_
    exact .binary default _ (.binary default _ (hint 1) (.binary default _ (hint 2) (hint 3)))
      (.binary default _ (.negate default (.binary default _ (hint 4) (hint 5))) (hint 6))
  · refine .define default default "f" (.simple default (k := .void) rfl)
      (List.forall_mem_singleton.2 (.mk default "a" (.simple default (k := .int) rfl)))
      (List.forall_mem_singleton.2 ?_)
    refine .branchElse default default default (.binary default _ (hname "a") (hint 2))
      (List.forall_mem_singleton.2 (.giveBack default)) (List.forall_mem_singleton.2 ?_)
    exact .call default default
      (.method default default "get" (hname "x") (List.forall_mem_singleton.2 (hname "a"))) rfl
  · exact .expression default (.binary default _ (.binary default _ (hname "x") (hname "y"))
      (.binary default _ (.binary default _ (hname "x") (hint 1)) (.bool default true)))

/-- What is written for the program, with parentheses where they have to stand, is read as it. -/
theorem ofTokens_of_lexemes_grouping :
    Node.grouping.IsProgram ∧
      ∃ program, Program.ofTokens (.onLine [.keyword .list, .symbol .lt, .keyword .int, .symbol .gt,
        .identifier "x", .symbol .assign, .int 1, .symbol .minus, .symbol .lparen, .int 2,
        .symbol .minus, .int 3, .symbol .rparen, .symbol .minus, .symbol .minus, .symbol .lparen,
        .int 4, .symbol .plus, .int 5, .symbol .rparen, .symbol .times, .int 6, .symbol .semicolon,
        .keyword .func, .keyword .void, .identifier "f", .symbol .lparen, .keyword .int,
        .identifier "a", .symbol .rparen, .symbol .lbrace, .keyword .if_, .symbol .lparen,
        .identifier "a", .symbol .lt, .int 2, .symbol .rparen, .symbol .lbrace, .keyword .return_,
        .symbol .semicolon, .symbol .rbrace, .keyword .else_, .symbol .lbrace, .identifier "x",
        .symbol .dot, .identifier "get", .symbol .lparen, .identifier "a", .symbol .rparen,
        .symbol .semicolon, .symbol .rbrace, .symbol .rbrace,
        .symbol .lparen, .symbol .lparen, .identifier "x", .symbol .or_, .identifier "y",
        .symbol .rparen, .symbol .and_, .symbol .lparen, .identifier "x", .symbol .lt, .int 1,
        .symbol .rparen, .symbol .eq, .keyword .true_, .symbol .rparen, .symbol .semicolon]) =
          .ok program ∧ program.bare = Node.grouping.bare :=
  ⟨Node.isProgram_grouping, ofTokens_of_lexemes Node.isProgram_grouping rfl _⟩

end AudLang
