import AudLang.Parser.Statement
import AudLang.Proofs.Outcome

/-!
What the rules of the grammar read.

The parser is a function from tokens to a tree or an error.  The relations here say the same of the
trees, without the order in which the parser goes about it: `Reading` for expressions and `Stating`
for types and statements have one constructor for each way in which a rule takes tokens, with what
the rule asks of the token in front.
-/

set_option linter.unusedVariables false

namespace AudLang.Parser

variable {ts : List Token} {α β : Type}

/-! ## Answers -/

/-- The errors that the parser may raise where the tokens end in `stop`: its own, and the one that
ended the tokens. -/
def Follows (stop : Stop) : ParseError → Prop
  | .lexical e => stop = .error e
  | _ => True

/-- The rule nests at most `bound` calls.  It answers with something of which `P` holds, or raises
an error that it may raise. -/
def Yields (stop : Stop) (bound : Nat) (x : Counted α) (P : α → Prop) : Prop :=
  x.depth ≤ bound ∧
    match x.result with
    | .ok a => P a
    | .error e => Follows stop e

section

variable {stop : Stop} {bound : Nat} {x : Counted α} {P : α → Prop}

lemma Yields.ok (h : Yields stop bound x P) {a : α} (hx : x.result = .ok a) : P a := by
  have hresult := h.2
  rwa [hx] at hresult

lemma Yields.pure {a : α} (h : P a) : Yields stop bound (pure a) P := ⟨Nat.zero_le _, h⟩

lemma Yields.call (h : Yields stop bound x P) : Yields stop (bound + 1) x.call P :=
  ⟨Nat.succ_le_succ h.1, h.2⟩

lemma Yields.le {b : Nat} (h : Yields stop b x P) (hle : b ≤ bound) : Yields stop bound x P :=
  ⟨Nat.le_trans h.1 hle, h.2⟩

lemma Yields.bind {f : α → Counted β} {Q : β → Prop} (hx : Yields stop bound x P)
    (hf : ∀ a, P a → Yields stop bound (f a) Q) : Yields stop bound (x >>= f) Q := by
  obtain ⟨result, depth⟩ := x
  cases result with
  | ok a => exact ⟨Nat.max_le.2 ⟨hx.1, (hf a hx.2).1⟩, (hf a hx.2).2⟩
  | error e => exact hx

lemma Yields.imp {Q : α → Prop} (h : Yields stop bound x P) (hPQ : ∀ a, P a → Q a) :
    Yields stop bound x Q := by
  obtain ⟨result, depth⟩ := x
  cases result with
  | ok a => exact ⟨h.1, hPQ a h.2⟩
  | error e => exact h

lemma Follows.forget {e : ParseError} (h : Follows stop e) : Follows stop e.forget := by
  cases e with
  | expected => trivial
  | _ => exact h

lemma Yields.forget (h : Yields stop bound x P) : Yields stop bound (x.mapError .forget) P := by
  obtain ⟨result, depth⟩ := x
  cases result with
  | ok a => exact h
  | error e => exact ⟨h.1, Follows.forget h.2⟩

lemma yields_fail (what : Expected) : Yields stop bound (fail stop what ts) P :=
  ⟨Nat.zero_le _, trivial⟩

lemma yields_reach : Yields stop bound (reach stop ts) fun _ => reach stop ts = .ok () := by
  cases ts with
  | nil => cases stop <;> exact ⟨Nat.zero_le _, rfl⟩
  | cons => exact ⟨Nat.zero_le _, rfl⟩

/-- The rule takes something from its tokens and leaves others, or raises an error that it may
raise. -/
abbrev Finds {R : List Token → Prop} (stop : Stop) (bound : Nat)
    (x : Counted (α × {r : List Token // R r})) (P : α → List Token → Prop) : Prop :=
  Yields stop bound x fun y => P y.1 y.2.1

lemma Finds.bind {R : List Token → Prop} {x : Counted (α × {r : List Token // R r})}
    {f : α × {r : List Token // R r} → Counted β} {P : α → List Token → Prop} {Q : β → Prop}
    (hx : Finds stop bound x P) (hf : ∀ a r hr, P a r → Yields stop bound (f (a, ⟨r, hr⟩)) Q) :
    Yields stop bound (x >>= f) Q :=
  Yields.bind hx fun y hy => hf y.1 y.2.1 y.2.2 hy

lemma Finds.call {R : List Token → Prop} {x : Counted (α × {r : List Token // R r})}
    {P : α → List Token → Prop}
    (h : Finds stop bound x P) : Finds stop (bound + 1) x.call P := Yields.call h

lemma Finds.le {b : Nat} {R : List Token → Prop} {x : Counted (α × {r : List Token // R r})}
    {P : α → List Token → Prop} (h : Finds stop b x P) (hle : b ≤ bound) : Finds stop bound x P :=
  Yields.le h hle

/-- An expected token stands at the front, and what follows it is left. -/
lemma finds_expect (wanted : Kind) :
    Finds stop bound (expect stop wanted ts) fun t r => t.kind = wanted ∧ ts = t :: r ∧
      reach stop r = .ok () := by
  cases ts with
  | nil => exact yields_fail _
  | cons t r =>
    rw [expect]
    split
    · rename_i hk
      exact yields_reach.bind fun _ hr => .pure ⟨hk, rfl, hr⟩
    · exact yields_fail _

end

/-! ## Expressions -/

/-- What a rule of expressions makes of its tokens. -/
inductive Phrase where
  | level (l : Level) (n : Node)
  | operand (l : Level) (n : Node)
  /-- A first operand, and what it becomes with the operators behind it. -/
  | chain (l : Level) (left n : Node)
  | unary (n : Node)
  | factor (n : Node)
  /-- An object, and what it becomes with the members behind it. -/
  | members (object n : Node)
  | primary (n : Node)
  /-- Arguments, and the place of the parenthesis that closes them. -/
  | arguments (args : List Node) (close : Position)
  | items (closing : Symbol) (es : List Node)
  | moreItems (es : List Node)

/-- Between these tokens and the rest of them stands this phrase. -/
inductive Reading : Phrase → List Token → List Token → Prop
  | level {l left n ts r₁ r₂} (hleft : Reading (.operand l left) ts r₁)
      (hchain : Reading (.chain l left n) r₁ r₂) : Reading (.level l n) ts r₂
  | operand {l m n ts r} (hm : l.tighter? = some m) (h : Reading (.level m n) ts r) :
      Reading (.operand l n) ts r
  | tightest {l n ts r} (hl : l.tighter? = none) (h : Reading (.unary n) ts r) :
      Reading (.operand l n) ts r
  | chainEnd {l left r} (h : l.op? (kind r) = none) : Reading (.chain l left left) r r
  | comparison {op left right t ts r} (hop : Level.comparison.op? t.kind = some op)
      (hright : Reading (.operand .comparison right) ts r) :
      Reading (.chain .comparison left (binaryNode op left right)) (t :: ts) r
  | chain {l op left right n t ts r₁ r₂} (hop : l.op? t.kind = some op) (hl : l ≠ .comparison)
      (hright : Reading (.operand l right) ts r₁)
        (hchain : Reading (.chain l (binaryNode op left right) n) r₁ r₂) :
      Reading (.chain l left n) (t :: ts) r₂
  | minus {e t ts r} (ht : t.kind = .symbol .minus) (h : Reading (.factor e) ts r) :
      Reading (.unary (.negate ⟨t.position, e.stop⟩ e)) (t :: ts) r
  | unary {e ts r} (hk : kind ts ≠ .symbol .minus) (h : Reading (.factor e) ts r) :
      Reading (.unary e) ts r
  | factor {e n ts r₁ r₂} (he : Reading (.primary e) ts r₁) (hn : Reading (.members e n) r₁ r₂) :
      Reading (.factor n) ts r₂
  | membersEnd {e r} (h : kind r ≠ .symbol .dot) : Reading (.members e e) r r
  | property {e n t u ts r} (ht : t.kind = .symbol .dot) (hu : u.kind = .identifier)
      (hk : kind ts ≠ .symbol .lparen)
      (h : Reading (.members (.member ⟨e.start, u.position⟩ e u.identifier) n) ts r) :
      Reading (.members e n) (t :: u :: ts) r
  | method {e n args close t u ts r₁ r₂} (ht : t.kind = .symbol .dot) (hu : u.kind = .identifier)
      (hk : kind ts = .symbol .lparen) (hargs : Reading (.arguments args close) ts r₁)
      (h : Reading (.members
        (.call ⟨e.start, close⟩ (.member ⟨e.start, u.position⟩ e u.identifier) args) n) r₁ r₂) :
      Reading (.members e n) (t :: u :: ts) r₂
  | literal {n t r} (h : literal? t.position t.lexeme = some n) : Reading (.primary n) (t :: r) r
  | name {id t r} (ht : t.lexeme = .identifier id) (hk : kind r ≠ .symbol .lparen) :
      Reading (.primary (.name ⟨t.position, t.position⟩ id)) (t :: r) r
  | call {id args close t ts r} (ht : t.lexeme = .identifier id) (hk : kind ts = .symbol .lparen)
      (hargs : Reading (.arguments args close) ts r) :
      Reading (.primary (.call ⟨t.position, close⟩ (.name ⟨t.position, t.position⟩ id) args))
        (t :: ts) r
  | construct {k args close t ts r} (ht : t.lexeme = .keyword k) (hc : isConstructor k = true)
      (hk : kind ts = .symbol .lparen) (hargs : Reading (.arguments args close) ts r) :
      Reading (.primary (.construct ⟨t.position, close⟩ k.spelling args)) (t :: ts) r
  | list {es t u ts r} (ht : t.lexeme = .symbol .lbracket)
      (h : Reading (.items .rbracket es) ts (u :: r))
      (hu : u.kind = .symbol .rbracket) :
        Reading (.primary (.list ⟨t.position, u.position⟩ es)) (t :: ts) r
  | group {e t u ts r} (ht : t.lexeme = .symbol .lparen)
      (h : Reading (.level .disjunction e) ts (u :: r))
      (hu : u.kind = .symbol .rparen) : Reading (.primary e) (t :: ts) r
  | arguments {es t u ts r} (ht : t.kind = .symbol .lparen)
      (h : Reading (.items .rparen es) ts (u :: r))
      (hu : u.kind = .symbol .rparen) : Reading (.arguments es u.position) (t :: ts) r
  | noItems {closing r} (h : kind r = .symbol closing) : Reading (.items closing []) r r
  | items {closing e es ts r₁ r₂} (hk : kind ts ≠ .symbol closing)
      (he : Reading (.level .disjunction e) ts r₁)
      (hes : Reading (.moreItems es) r₁ r₂) : Reading (.items closing (e :: es)) ts r₂
  | itemsEnd {r} (h : kind r ≠ .symbol .comma) : Reading (.moreItems []) r r
  | moreItems {e es t ts r₁ r₂} (ht : t.kind = .symbol .comma)
      (he : Reading (.level .disjunction e) ts r₁)
      (hes : Reading (.moreItems es) r₁ r₂) : Reading (.moreItems (e :: es)) (t :: ts) r₂

/-- What the rules of expressions make of some tokens. -/
structure Sound (stop : Stop) (bound : Nat) (ts : List Token) : Prop where
  expression : Finds stop bound (expression stop ts) fun n => Reading (.level .disjunction n) ts
  operand : ∀ l, Finds stop bound (operand stop l ts) fun n => Reading (.operand l n) ts
  chain : ∀ l left, Finds stop bound (chain stop l left ts) fun n => Reading (.chain l left n) ts
  factor : Finds stop bound (factor stop ts) fun n => Reading (.factor n) ts
  members : ∀ object, Finds stop bound (members stop object ts) fun n =>
    Reading (.members object n) ts
  arguments : Yields stop bound (arguments stop ts) fun y =>
    Reading (.arguments y.1 y.2.1) ts y.2.2.1
  items : ∀ closing, Finds stop bound (items stop closing ts) fun es =>
    Reading (.items closing es) ts
  moreItems : Finds stop bound (moreItems stop ts) fun es => Reading (.moreItems es) ts

lemma Sound.le {stop : Stop} {b bound : Nat} (h : Sound stop b ts) (hle : b ≤ bound) :
    Sound stop bound ts where
  expression := h.expression.le hle
  operand l := (h.operand l).le hle
  chain l left := (h.chain l left).le hle
  factor := h.factor.le hle
  members object := (h.members object).le hle
  arguments := h.arguments.le hle
  items closing := (h.items closing).le hle
  moreItems := h.moreItems.le hle

section

/- A token costs ten calls at most: those of the five levels, and of an expression, a unary
operation, a factor, a primary and its form. -/
variable {stop : Stop}
  (ih : ∀ ts' : List Token, ts'.length < ts.length → Sound stop (10 * ts.length) ts')
include ih

lemma primary_sound : Finds stop (10 * ts.length + 2) (primary stop ts) fun n =>
    Reading (.primary n) ts := by
  cases ts with
  | nil =>
    rw [primary]
    exact (yields_fail _).call.call
  | cons t ts =>
    have hlt : ts.length < (t :: ts).length := Nat.lt_succ_self _
    have hrest : Sound stop _ ts := ih ts hlt
    rw [primary]
    refine Yields.call (Yields.call ?_)
    split
    · rename_i hl
      exact yields_reach.bind fun _ _ => .pure (.literal hl)
    · -- a name, perhaps with arguments
      rename_i hx
      refine yields_reach.bind fun _ _ => ?_
      split
      · rename_i hk
        exact hrest.arguments.bind fun _ hargs => .pure (.call hx hk hargs)
      · rename_i hk
        exact .pure (.name hx hk)
    · -- a construction
      rename_i hx
      split
      · rename_i hc
        refine yields_reach.bind fun _ _ => ?_
        split
        · rename_i hk
          exact hrest.arguments.bind fun _ hargs => .pure (.construct hx hc hk hargs)
        · exact yields_fail _
      · exact yields_fail _
    · -- a list
      rename_i hx
      refine yields_reach.bind fun _ _ => (hrest.items _).bind fun es r₁ _ hes => ?_
      refine (finds_expect _).bind fun u r₂ _ hu => ?_
      obtain ⟨hu, rfl, -⟩ := hu
      exact .pure (.list hx hes hu)
    · -- an expression in parentheses
      rename_i hx
      refine yields_reach.bind fun _ _ => hrest.expression.bind fun e r₁ _ he => ?_
      refine (finds_expect _).bind fun u r₂ _ hu => ?_
      obtain ⟨hu, rfl, -⟩ := hu
      exact .pure (.group hx he hu)
    · exact yields_fail _

lemma members_sound (object : Node) :
    Finds stop (10 * ts.length) (members stop object ts) fun n =>
      Reading (.members object n) ts := by
  cases ts with
  | nil =>
    rw [members]
    exact .pure (.membersEnd (by simp [kind]))
  | cons t ts =>
    have hlt : ts.length < (t :: ts).length := Nat.lt_succ_self _
    rw [members]
    split
    · rename_i hdot
      refine yields_reach.bind fun _ _ => (finds_expect _).bind fun id r₁ h₁ hid => ?_
      obtain ⟨hid, rfl, -⟩ := hid
      have hrest : Sound stop _ r₁ := ih r₁ (Nat.lt_trans h₁ hlt)
      dsimp only
      split
      · rename_i hk
        refine hrest.arguments.bind ?_
        rintro ⟨args, close, r₂, h₂⟩ hargs
        refine Finds.bind ((ih r₂ (by omega)).members _) fun n r₃ _ hn => ?_
        exact .pure (.method hdot hid hk hargs hn)
      · rename_i hk
        exact (hrest.members _).bind fun n r₂ _ hn => .pure (.property hdot hid hk hn)
    · rename_i hdot
      exact .pure (.membersEnd hdot)

lemma factor_sound : Finds stop (10 * ts.length + 3) (factor stop ts) fun n =>
    Reading (.factor n) ts := by
  rw [factor]
  refine Yields.call ((primary_sound ih).bind fun e r₁ h₁ he =>
    (((ih r₁ h₁).members e).le (by omega)).bind fun n r₂ _ hn => ?_)
  exact .pure (.factor he hn)

lemma unary_sound : Finds stop (10 * ts.length + 4) (unary stop ts) fun n =>
    Reading (.unary n) ts := by
  cases ts with
  | nil =>
    rw [unary]
    exact Yields.call ((factor_sound ih).imp fun _ h => .unary (by simp [kind]) h)
  | cons t ts =>
    have hlt : ts.length < (t :: ts).length := Nat.lt_succ_self _
    rw [unary]
    refine Yields.call ?_
    split
    · rename_i hminus
      refine yields_reach.bind fun _ _ =>
        ((ih ts hlt).factor.le (by omega)).bind fun e r₁ _ he => ?_
      exact .pure (.minus hminus he)
    · rename_i hminus
      exact (factor_sound ih).imp fun _ h => .unary hminus h

lemma chain_sound (l : Level) (left : Node) :
    Finds stop (10 * ts.length) (chain stop l left ts) fun n => Reading (.chain l left n) ts := by
  cases ts with
  | nil =>
    rw [chain]
    exact .pure (.chainEnd (by cases l <;> rfl))
  | cons t ts =>
    have hlt : ts.length < (t :: ts).length := Nat.lt_succ_self _
    rw [chain]
    split
    · rename_i hop
      exact .pure (.chainEnd hop)
    · rename_i op hop
      refine yields_reach.bind fun _ _ => ((ih ts hlt).operand l).bind fun right r₁ h₁ hright => ?_
      dsimp only
      split
      · -- a comparison takes no more
        rename_i hl
        subst hl
        exact .pure (.comparison hop hright)
      · rename_i hl
        exact ((ih r₁ (by omega)).chain _ _).bind fun n r₂ _ hn => .pure (.chain hop hl hright hn)

lemma arguments_sound :
    Yields stop (10 * ts.length + 2) (arguments stop ts) fun y =>
      Reading (.arguments y.1 y.2.1) ts y.2.2.1 := by
  rw [arguments]
  refine Yields.call ((finds_expect _).bind fun t r₁ h₁ ht => ?_)
  refine ((ih r₁ h₁).items .rparen).call.bind fun es r₂ _ hes =>
    (finds_expect _).bind fun u r₃ _ hu => ?_
  obtain ⟨ht, rfl, -⟩ := ht
  obtain ⟨hu, rfl, -⟩ := hu
  exact .pure (.arguments ht hes hu)

lemma moreItems_sound :
    Finds stop (10 * ts.length) (moreItems stop ts) fun es => Reading (.moreItems es) ts := by
  cases ts with
  | nil =>
    rw [moreItems]
    exact .pure (.itemsEnd (by simp [kind]))
  | cons t ts =>
    have hlt : ts.length < (t :: ts).length := Nat.lt_succ_self _
    rw [moreItems]
    split
    · rename_i hcomma
      refine yields_reach.bind fun _ _ => (ih ts hlt).expression.bind fun e r₁ h₁ he => ?_
      exact (ih r₁ (by omega)).moreItems.bind fun es r₂ _ hes => .pure (.moreItems hcomma he hes)
    · rename_i hcomma
      exact .pure (.itemsEnd hcomma)

/-- All levels at once, from the tightest: each asks the next tighter one at the same tokens. -/
lemma level_sound : ∀ (height : Nat) {l : Level}, l.height = height →
    (Finds stop (10 * ts.length + l.height + 3) (operand stop l ts) fun n =>
      Reading (.operand l n) ts) ∧
      Finds stop (10 * ts.length + l.height + 4) (level stop l ts) fun n =>
        Reading (.level l n) ts := by
  intro height
  induction height using Nat.strongRecOn with
  | ind height tighter =>
    intro l hl
    have hoperand :
        Finds stop (10 * ts.length + l.height + 3) (operand stop l ts) fun n =>
          Reading (.operand l n) ts := by
      rw [operand]
      split
      · rename_i m hm
        have hlower := Level.height_tighter hm
        exact ((tighter _ (hl ▸ hlower) rfl).2.imp fun _ h => .operand hm h).le (by omega)
      · rename_i hnone
        have hproduct : 1 ≤ l.height := by cases l <;> decide
        exact ((unary_sound ih).imp fun _ h => .tightest hnone h).le (by omega)
    refine ⟨hoperand, ?_⟩
    rw [level]
    refine Yields.call (hoperand.bind fun left r₁ h₁ hleft =>
      (((ih r₁ h₁).chain l left).le (by omega)).bind fun n r₂ _ hn => ?_)
    exact .pure (.level hleft hn)

lemma items_sound (closing : Symbol) :
    Finds stop (10 * ts.length + 10) (items stop closing ts) fun es =>
      Reading (.items closing es) ts := by
  rw [items]
  split
  · rename_i hk
    exact .pure (.noItems hk)
  · rename_i hk
    have hheight : Level.disjunction.height = 5 := rfl
    refine (level_sound ih 5 hheight).2.call.bind fun e r₁ h₁ he =>
      ((ih r₁ h₁).moreItems.le (by omega)).bind fun es r₂ _ hes => ?_
    exact .pure (.items hk he hes)

end

/-- Whatever the rules of expressions answer with is read, and their errors are those that they may
raise. -/
lemma sound (stop : Stop) (ts : List Token) : Sound stop (10 * ts.length + 10) ts := by
  induction hN : ts.length using Nat.strongRecOn generalizing ts with
  | ind N shorter =>
    subst hN
    have ih : ∀ ts' : List Token, ts'.length < ts.length → Sound stop (10 * ts.length) ts' :=
      fun ts' h => (shorter _ h ts' rfl).le (by omega)
    exact {
      expression := (level_sound ih 5 rfl).2.call
      operand := fun l => (level_sound ih _ rfl).1.le (by cases l <;> simp [Level.height])
      chain := fun l left => (chain_sound ih l left).le (by omega)
      factor := (factor_sound ih).le (by omega)
      members := fun object => (members_sound ih object).le (by omega)
      arguments := (arguments_sound ih).le (by omega)
      items := items_sound ih
      moreItems := (moreItems_sound ih).le (by omega) }

lemma finds_expression (stop : Stop) (ts : List Token) :
    Finds stop (10 * ts.length + 10) (expression stop ts) fun n =>
      Reading (.level .disjunction n) ts :=
  (sound stop ts).expression

/-! ## Expressions, the other way round -/

/-- A rule takes this from its tokens and leaves the rest. -/
def Reads {P : List Token → Prop} (x : Counted (α × {r : List Token // P r})) (a : α)
    (rest : List Token) : Prop :=
  ∃ h, x.result = .ok (a, ⟨rest, h⟩)

/-- Arguments are read with the place of the parenthesis that closes them. -/
def ReadsArguments {ts : List Token} (x : Counted (List Node × Position × Rest ts))
    (args : List Node) (close : Position) (rest : List Token) : Prop :=
  ∃ h, x.result = .ok (args, close, ⟨rest, h⟩)

section

variable {P Q : List Token → Prop} {end_ : Position}

lemma result_bind {x : Counted α} {f : α → Counted β} {a : α} (h : x.result = .ok a) :
    (x >>= f).result = (f a).result := by
  obtain ⟨result, depth⟩ := x
  cases h
  rfl

lemma Reads.call {x : Counted (α × {r : List Token // P r})} {a : α} {r : List Token}
    (h : Reads x a r) : Reads x.call a r := h

lemma Reads.forget {x : Counted (α × {r : List Token // P r})} {a : α} {r : List Token}
    (h : Reads x a r) : Reads (x.mapError .forget) a r := by
  obtain ⟨hr, hx⟩ := h
  exact ⟨hr, congrArg (Except.mapError _) hx⟩

lemma Reads.bind {x : Counted (α × {r : List Token // P r})}
    {f : α × {r : List Token // P r} → Counted (β × {r : List Token // Q r})} {a : α} {b : β}
    {r₁ r₂ : List Token}
    (hx : Reads x a r₁) (hf : ∀ h, Reads (f (a, ⟨r₁, h⟩)) b r₂) : Reads (x >>= f) b r₂ := by
  obtain ⟨h, hx⟩ := hx
  rw [Reads, result_bind hx]
  exact hf h

lemma ReadsArguments.bind {ts : List Token} {x : Counted (List Node × Position × Rest ts)}
    {f : List Node × Position × Rest ts → Counted (β × {r : List Token // Q r})} {args : List Node}
    {close : Position}
    {b : β} {r₁ r₂ : List Token} (hx : ReadsArguments x args close r₁)
    (hf : ∀ h, Reads (f (args, close, ⟨r₁, h⟩)) b r₂) : Reads (x >>= f) b r₂ := by
  obtain ⟨h, hx⟩ := hx
  rw [Reads, result_bind hx]
  exact hf h

lemma Reads.bindArguments {x : Counted (α × {r : List Token // P r})}
    {f : α × {r : List Token // P r} → Counted (List Node × Position × Rest ts)} {a : α}
    {args : List Node} {close : Position} {r₁ r₂ : List Token} (hx : Reads x a r₁)
    (hf : ∀ h, ReadsArguments (f (a, ⟨r₁, h⟩)) args close r₂) :
    ReadsArguments (x >>= f) args close r₂ := by
  obtain ⟨h, hx⟩ := hx
  rw [ReadsArguments, result_bind hx]
  exact hf h

lemma reach_ok (ts : List Token) : reach (.ok end_) ts = .ok () := by
  cases ts <;> rfl

lemma Reads.reach {ts r : List Token} {k : Counted (α × {r : List Token // P r})} {a : α}
    (hk : Reads k a r) : Reads (liftM (reach (.ok end_) ts) >>= fun _ => k) a r := by
  rw [reach_ok]
  exact hk

lemma reads_expect {wanted : Kind} {t : Token} {r : List Token} (h : t.kind = wanted) :
    Reads (expect (.ok end_) wanted (t :: r)) t r := by
  rw [expect, if_pos h]
  exact .reach ⟨_, rfl⟩

end

/-- The rule makes the phrase of the tokens and leaves the rest. -/
abbrev Phrase.IsParsed (end_ : Position) (ts r : List Token) : Phrase → Prop
  | .level l n => Reads (Parser.level (.ok end_) l ts) n r
  | .operand l n => Reads (Parser.operand (.ok end_) l ts) n r
  | .chain l left n => Reads (Parser.chain (.ok end_) l left ts) n r
  | .unary n => Reads (Parser.unary (.ok end_) ts) n r
  | .factor n => Reads (Parser.factor (.ok end_) ts) n r
  | .members object n => Reads (Parser.members (.ok end_) object ts) n r
  | .primary n => Reads (Parser.primary (.ok end_) ts) n r
  | .arguments args close => ReadsArguments (Parser.arguments (.ok end_) ts) args close r
  | .items closing es => Reads (Parser.items (.ok end_) closing ts) es r
  | .moreItems es => Reads (Parser.moreItems (.ok end_) ts) es r

/-- Whatever is read of an expression, the rules answer with. -/
lemma Reading.isParsed {phrase : Phrase} {r : List Token} (h : Reading phrase ts r)
    (end_ : Position) : phrase.IsParsed end_ ts r := by
  induction h with
  | level _ _ hleft hchain =>
    rw [Phrase.IsParsed, Parser.level]
    exact .call <| hleft.bind fun _ => hchain.bind fun _ => ⟨_, rfl⟩
  | operand hm _ h =>
    rw [Phrase.IsParsed, Parser.operand]
    split
    · rename_i m' hm'
      cases hm.symm.trans hm'
      exact h
    · rename_i hnone
      cases hm.symm.trans hnone
  | tightest hl _ h =>
    rw [Phrase.IsParsed, Parser.operand]
    split
    · rename_i m hm
      cases hl.symm.trans hm
    · exact h
  | @chainEnd l left r h =>
    cases r with
    | nil =>
      rw [Phrase.IsParsed, Parser.chain]
      exact ⟨_, rfl⟩
    | cons t r =>
      rw [Phrase.IsParsed, Parser.chain]
      split
      · exact ⟨_, rfl⟩
      · rename_i hop
        cases h.symm.trans hop
  | comparison hop _ hright =>
    rw [Phrase.IsParsed, Parser.chain]
    split
    · rename_i hnone
      cases hop.symm.trans hnone
    · rename_i op' hop'
      cases hop.symm.trans hop'
      exact .reach (hright.bind fun _ => ⟨_, rfl⟩)
  | chain hop hl _ _ hright hchain =>
    rw [Phrase.IsParsed, Parser.chain]
    split
    · rename_i hnone
      cases hop.symm.trans hnone
    · rename_i op' hop'
      cases hop.symm.trans hop'
      refine .reach (hright.bind fun _ => ?_)
      simp only [if_neg hl]
      exact hchain.bind fun _ => ⟨_, rfl⟩
  | minus ht _ h =>
    rw [Phrase.IsParsed, Parser.unary, if_pos ht]
    exact .call <| .reach (h.bind fun _ => ⟨_, rfl⟩)
  | @unary e ts r hk _ h =>
    cases ts with
    | nil =>
      rw [Phrase.IsParsed, Parser.unary]
      exact h.call
    | cons t ts =>
      have ht : t.kind ≠ .symbol .minus := hk
      rw [Phrase.IsParsed, Parser.unary, if_neg ht]
      exact h.call
  | factor _ _ he hn =>
    rw [Phrase.IsParsed, Parser.factor]
    exact .call <| he.bind fun _ => hn.bind fun _ => ⟨_, rfl⟩
  | @membersEnd e r h =>
    cases r with
    | nil =>
      rw [Phrase.IsParsed, Parser.members]
      exact ⟨_, rfl⟩
    | cons t r =>
      have ht : t.kind ≠ .symbol .dot := h
      rw [Phrase.IsParsed, Parser.members, if_neg ht]
      exact ⟨_, rfl⟩
  | property ht hu hk _ h =>
    rw [Phrase.IsParsed, Parser.members, if_pos ht]
    refine .reach ((reads_expect hu).bind fun _ => ?_)
    simp only [if_neg hk]
    exact h.bind fun _ => ⟨_, rfl⟩
  | method ht hu hk _ _ hargs h =>
    rw [Phrase.IsParsed, Parser.members, if_pos ht]
    refine .reach ((reads_expect hu).bind fun _ => ?_)
    simp only [if_pos hk]
    exact hargs.bind fun _ => h.bind fun _ => ⟨_, rfl⟩
  | literal h =>
    rw [Phrase.IsParsed, Parser.primary]
    simp only [h]
    exact .call <| .call <| .reach ⟨_, rfl⟩
  | @name id t r ht hk =>
    obtain ⟨x, q⟩ := t
    cases ht
    rw [Phrase.IsParsed, Parser.primary]
    refine .call <| .call <| .reach ?_
    simp only [if_neg hk]
    exact ⟨_, rfl⟩
  | @call id args close t ts r ht hk _ hargs =>
    obtain ⟨x, q⟩ := t
    cases ht
    rw [Phrase.IsParsed, Parser.primary]
    refine .call <| .call <| .reach ?_
    simp only [if_pos hk]
    exact hargs.bind fun _ => ⟨_, rfl⟩
  | @construct k args close t ts r ht hc hk _ hargs =>
    obtain ⟨x, q⟩ := t
    cases ht
    have hliteral : literal? q (.keyword k) = none := by
      cases k <;> first | rfl | exact absurd hc (by decide)
    rw [Phrase.IsParsed, Parser.primary]
    simp only [hliteral, if_pos hc]
    refine .call <| .call <| .reach ?_
    simp only [if_pos hk]
    exact hargs.bind fun _ => ⟨_, rfl⟩
  | @list es t u ts r ht _ hu h =>
    obtain ⟨x, q⟩ := t
    cases ht
    rw [Phrase.IsParsed, Parser.primary]
    exact .call <| .call <| .reach (h.bind fun _ => (reads_expect hu).bind fun _ => ⟨_, rfl⟩)
  | @group e t u ts r ht _ hu h =>
    obtain ⟨x, q⟩ := t
    cases ht
    rw [Phrase.IsParsed, Parser.primary]
    exact .call <| .call <| .reach (h.call.bind fun _ => (reads_expect hu).bind fun _ => ⟨_, rfl⟩)
  | arguments ht _ hu h =>
    rw [Phrase.IsParsed, Parser.arguments]
    exact (reads_expect ht).bindArguments fun _ => h.call.bindArguments fun _ =>
      (reads_expect hu).bindArguments fun _ => ⟨_, rfl⟩
  | noItems h =>
    rw [Phrase.IsParsed, Parser.items, if_pos h]
    exact ⟨_, rfl⟩
  | items hk _ _ he hes =>
    rw [Phrase.IsParsed, Parser.items, if_neg hk]
    exact he.call.bind fun _ => hes.bind fun _ => ⟨_, rfl⟩
  | @itemsEnd r h =>
    cases r with
    | nil =>
      rw [Phrase.IsParsed, Parser.moreItems]
      exact ⟨_, rfl⟩
    | cons t r =>
      have ht : t.kind ≠ .symbol .comma := h
      rw [Phrase.IsParsed, Parser.moreItems, if_neg ht]
      exact ⟨_, rfl⟩
  | moreItems ht _ _ he hes =>
    rw [Phrase.IsParsed, Parser.moreItems, if_pos ht]
    exact .reach (he.call.bind fun _ => hes.bind fun _ => ⟨_, rfl⟩)

lemma Reading.isParsedExpression {e : Node} {r : List Token}
    (h : Reading (.level .disjunction e) ts r)
    (end_ : Position) : Reads (expression (.ok end_) ts) e r := (h.isParsed end_).call

/-! ## Statements -/

/-- What a rule of types or statements makes of its tokens. -/
inductive Clause where
  | type (n : Node)
  | parameter (n : Node)
  | parameters (ps : List Node)
  | moreParameters (ps : List Node)
  | condition (n : Node)
  | statement (n : Node)
  | block (n : Node)
  | statements (ns : List Node)
  /-- Statements up to the end of the text. -/
  | topLevel (ns : List Node)

/-- Does a statement that opens with such a token consist of an expression that opens with no
name? -/
def opensOther : Kind → Bool
  | .keyword .func | .keyword .if_ | .keyword .while_ | .keyword .return_ | .identifier => false
  | .keyword k => !opensDeclaration k
  | _ => true

/-- Between these tokens and the rest of them stands this clause.  Whoever takes the last token of a
statement looks at what is behind it. -/
inductive Stating (stop : Stop) : Clause → List Token → List Token → Prop
  | simpleType {k t r} (ht : t.lexeme = .keyword k) (hk : isSimpleType k = true) :
      Stating stop (.type (.type ⟨t.position, t.position⟩ k.spelling)) (t :: r) r
  | listType {e t u v ts r} (ht : t.lexeme = .keyword .list) (hu : u.kind = .symbol .lt)
      (he : Stating stop (.type e) ts (v :: r)) (hv : v.kind = .symbol .gt) :
      Stating stop (.type (.listType ⟨t.position, v.position⟩ Keyword.list.spelling e))
        (t :: u :: ts) r
  | parameter {type u ts r} (htype : Stating stop (.type type) ts (u :: r))
      (hu : u.kind = .identifier) :
      Stating stop (.parameter (.parameter ⟨type.start, u.position⟩ type (.plain u.identifier))) ts
        r
  | noParameters {r} (h : kind r = .symbol .rparen) : Stating stop (.parameters []) r r
  | parameters {p ps ts r₁ r₂} (hk : kind ts ≠ .symbol .rparen)
      (hp : Stating stop (.parameter p) ts r₁)
      (hps : Stating stop (.moreParameters ps) r₁ r₂) : Stating stop (.parameters (p :: ps)) ts r₂
  | parametersEnd {r} (h : kind r ≠ .symbol .comma) : Stating stop (.moreParameters []) r r
  | moreParameters {p ps t ts r₁ r₂} (ht : t.kind = .symbol .comma)
      (hp : Stating stop (.parameter p) ts r₁)
      (hps : Stating stop (.moreParameters ps) r₁ r₂) :
        Stating stop (.moreParameters (p :: ps)) (t :: ts) r₂
  | condition {e t u ts r} (ht : t.kind = .symbol .lparen)
      (he : Reading (.level .disjunction e) ts (u :: r))
      (hu : u.kind = .symbol .rparen) : Stating stop (.condition e) (t :: ts) r
  | declare {k type e t u v ts ts' r} (hk : kind ts = .keyword k)
      (hopens : opensDeclaration k = true)
      (htype : Stating stop (.type type) ts (t :: u :: ts')) (ht : t.kind = .identifier)
      (hu : u.kind = .symbol .assign) (he : Reading (.level .disjunction e) ts' (v :: r))
      (hv : v.kind = .symbol .semicolon) (hr : reach stop r = .ok ()) :
      Stating stop (.statement (.declare ⟨type.start, v.position⟩ type t.identifier e)) ts r
  | giveBack {t u r} (ht : t.kind = .keyword .return_) (hu : u.kind = .symbol .semicolon)
      (hr : reach stop r = .ok ()) :
      Stating stop (.statement (.giveBack ⟨t.position, u.position⟩ .missing)) (t :: u :: r) r
  | giveBackValue {e t u ts r} (ht : t.kind = .keyword .return_) (hk : kind ts ≠ .symbol .semicolon)
      (he : Reading (.level .disjunction e) ts (u :: r)) (hu : u.kind = .symbol .semicolon)
      (hr : reach stop r = .ok ()) :
        Stating stop (.statement (.giveBack ⟨t.position, u.position⟩ e)) (t :: ts) r
  | assign {target e t u ts ts' r} (hk : kind ts = .identifier)
      (htarget : Reading (.level .disjunction target) ts (t :: ts')) (ht : t.kind = .symbol .assign)
      (his : isTarget target = true) (he : Reading (.level .disjunction e) ts' (u :: r))
      (hu : u.kind = .symbol .semicolon) (hr : reach stop r = .ok ()) :
      Stating stop (.statement (.assign ⟨target.start, u.position⟩ target e)) ts r
  | standing {e u ts r} (hk : kind ts = .identifier)
      (he : Reading (.level .disjunction e) ts (u :: r))
      (hu : u.kind = .symbol .semicolon) (hr : reach stop r = .ok ()) :
      Stating stop (.statement (standing u.position e)) ts r
  | other {e u ts r} (hk : opensOther (kind ts) = true)
      (he : Reading (.level .disjunction e) ts (u :: r))
      (hu : u.kind = .symbol .semicolon) (hr : reach stop r = .ok ()) :
      Stating stop (.statement (.expressionStatement ⟨e.start, u.position⟩ e)) ts r
  | branch {c body t ts r₁ r₂} (ht : t.kind = .keyword .if_)
      (hc : Stating stop (.condition c) ts r₁)
      (hbody : Stating stop (.block body) r₁ r₂) (hk : kind r₂ ≠ .keyword .else_) :
      Stating stop (.statement (.branch ⟨t.position, body.stop⟩ c body .missing)) (t :: ts) r₂
  | branchElse {c body other t u ts r₁ r₂ r₃} (ht : t.kind = .keyword .if_)
      (hc : Stating stop (.condition c) ts r₁)
      (hbody : Stating stop (.block body) r₁ (u :: r₂)) (hu : u.kind = .keyword .else_)
      (hother : Stating stop (.block other) r₂ r₃) :
      Stating stop (.statement (.branch ⟨t.position, other.stop⟩ c body other)) (t :: ts) r₃
  | loop {c body t ts r₁ r₂} (ht : t.kind = .keyword .while_)
      (hc : Stating stop (.condition c) ts r₁) (hbody : Stating stop (.block body) r₁ r₂) :
      Stating stop (.statement (.loop ⟨t.position, body.stop⟩ c body)) (t :: ts) r₂
  | define {returns ps body t u v w ts ts' r₁ r₂} (ht : t.kind = .keyword .func)
      (hreturns : Stating stop (.type returns) ts (u :: v :: ts')) (hu : u.kind = .identifier)
      (hv : v.kind = .symbol .lparen) (hps : Stating stop (.parameters ps) ts' (w :: r₁))
      (hw : w.kind = .symbol .rparen) (hbody : Stating stop (.block body) r₁ r₂) :
      Stating stop (.statement (.define ⟨t.position, body.stop⟩ returns u.identifier ps body))
        (t :: ts) r₂
  | block {ns t u ts r} (ht : t.kind = .symbol .lbrace)
      (hns : Stating stop (.statements ns) ts (u :: r))
      (hu : u.kind = .symbol .rbrace) (hr : reach stop r = .ok ()) :
      Stating stop (.block (.block ⟨t.position, u.position⟩ ns)) (t :: ts) r
  | noStatements {r} (h : kind r = .symbol .rbrace) : Stating stop (.statements []) r r
  | statements {n ns ts r₁ r₂} (hk : kind ts ≠ .symbol .rbrace)
      (hn : Stating stop (.statement n) ts r₁)
      (hns : Stating stop (.statements ns) r₁ r₂) : Stating stop (.statements (n :: ns)) ts r₂
  | finish : Stating stop (.topLevel []) [] []
  | topLevel {n ns t ts r} (hn : Stating stop (.statement n) (t :: ts) r)
      (hns : Stating stop (.topLevel ns) r []) : Stating stop (.topLevel (n :: ns)) (t :: ts) []

section

variable {stop : Stop}

lemma finds_typeName : Finds stop (10 * ts.length) (typeName stop ts) fun n =>
    Stating stop (.type n) ts := by
  fun_induction typeName stop ts with
  | case1 => exact yields_fail _
  | case2 t r ht ih =>
    have hlt : r.length < (t :: r).length := Nat.lt_succ_self _
    refine yields_reach.bind fun _ _ => (finds_expect _).bind fun u r₁ h₁ hu => ?_
    refine ((ih r₁ h₁).call.le (by omega)).bind fun e r₂ _ he =>
      (finds_expect _).bind fun v r₃ _ hv => ?_
    obtain ⟨hu, rfl, -⟩ := hu
    obtain ⟨hv, rfl, -⟩ := hv
    exact .pure (.listType ht hu he hv)
  | case3 t r k _ ht hk => exact yields_reach.bind fun _ _ => .pure (.simpleType ht hk)
  | case4 => exact yields_fail _
  | case5 => exact yields_fail _

lemma finds_parameter : Finds stop (10 * ts.length + 1) (parameter stop ts) fun n =>
    Stating stop (.parameter n) ts := by
  rw [parameter]
  refine (Finds.call finds_typeName).bind fun type r₁ _ htype =>
    (finds_expect _).bind fun u r₂ _ hu => ?_
  obtain ⟨hu, rfl, -⟩ := hu
  exact .pure (.parameter htype hu)

lemma finds_moreParameters :
    Finds stop (10 * ts.length) (moreParameters stop ts) fun ps =>
      Stating stop (.moreParameters ps) ts := by
  fun_induction moreParameters stop ts with
  | case1 => exact .pure (.parametersEnd (by simp [kind]))
  | case2 t r ht ih =>
    have hlt : r.length < (t :: r).length := Nat.lt_succ_self _
    refine yields_reach.bind fun _ _ =>
      (Finds.le finds_parameter (by omega)).bind fun p r₁ h₁ hp => ?_
    exact ((ih r₁ h₁).le (by omega)).bind fun ps r₂ _ hps => .pure (.moreParameters ht hp hps)
  | case3 t r ht => exact .pure (.parametersEnd ht)

lemma finds_parameters :
    Finds stop (10 * ts.length + 2) (parameters stop ts) fun ps =>
      Stating stop (.parameters ps) ts := by
  rw [parameters]
  refine Yields.call ?_
  split
  · rename_i hk
    exact .pure (.noParameters hk)
  · rename_i hk
    refine Finds.bind finds_parameter fun p r₁ _ hp =>
      (Finds.le finds_moreParameters (by omega)).bind fun ps r₂ _ hps => ?_
    exact .pure (.parameters hk hp hps)

lemma finds_condition : Finds stop (10 * ts.length) (condition stop ts) fun n =>
    Stating stop (.condition n) ts := by
  rw [condition]
  refine (finds_expect _).bind fun t r₁ _ ht =>
    ((finds_expression stop r₁).le (by omega)).bind fun e r₂ _ he => ?_
  refine (finds_expect _).bind fun u r₃ _ hu => ?_
  obtain ⟨ht, rfl, -⟩ := ht
  obtain ⟨hu, rfl, -⟩ := hu
  exact .pure (.condition ht he hu)

lemma finds_declaration {k : Keyword} (hk : kind ts = .keyword k)
    (hopens : opensDeclaration k = true) :
    Finds stop (10 * ts.length + 10) (declaration stop ts) fun n =>
      Stating stop (.statement n) ts := by
  rw [declaration]
  refine ((Finds.call finds_typeName).le (by omega)).bind fun type r₁ _ htype =>
    (finds_expect _).bind fun t r₂ _ ht => ?_
  refine (finds_expect _).bind fun u r₃ _ hu =>
    ((finds_expression stop r₃).le (by omega)).bind fun e r₄ _ he => ?_
  refine (finds_expect _).bind fun v r₅ _ hv => ?_
  obtain ⟨ht, rfl, -⟩ := ht
  obtain ⟨hu, rfl, -⟩ := hu
  obtain ⟨hv, rfl, hr⟩ := hv
  exact .pure (.declare hk hopens htype ht hu he hv hr)

lemma finds_returnStatement : Finds stop (10 * ts.length + 10) (returnStatement stop ts) fun n =>
    Stating stop (.statement n) ts := by
  rw [returnStatement]
  refine (finds_expect _).bind fun t r₁ _ ht => ?_
  obtain ⟨ht, rfl, -⟩ := ht
  dsimp only
  split
  · refine (finds_expect _).bind fun u r₂ _ hu => ?_
    obtain ⟨hu, rfl, hr⟩ := hu
    exact .pure (.giveBack ht hu hr)
  · rename_i hk
    refine ((finds_expression stop r₁).le (by omega)).bind fun e r₂ _ he =>
      (finds_expect _).bind fun u r₃ _ hu => ?_
    obtain ⟨hu, rfl, hr⟩ := hu
    exact .pure (.giveBackValue ht hk he hu hr)

lemma finds_nameStatement (hk : kind ts = .identifier) :
    Finds stop (10 * ts.length + 10) (nameStatement stop ts) fun n =>
      Stating stop (.statement n) ts := by
  rw [nameStatement]
  refine (finds_expression stop ts).bind fun target r₁ _ htarget => ?_
  dsimp only
  split
  · split
    · rename_i his
      refine (finds_expect _).bind fun t r₂ _ ht =>
        ((finds_expression stop r₂).le (by omega)).bind fun e r₃ _ he => ?_
      refine (finds_expect _).bind fun u r₄ _ hu => ?_
      obtain ⟨ht, rfl, -⟩ := ht
      obtain ⟨hu, rfl, hr⟩ := hu
      exact .pure (.assign hk htarget ht his he hu hr)
    · exact ⟨Nat.zero_le _, trivial⟩
  · refine (finds_expect _).bind fun u r₂ _ hu => ?_
    obtain ⟨hu, rfl, hr⟩ := hu
    exact .pure (.standing hk htarget hu hr)

/-- A fault is reported in another wording, but only where the parser found it. -/
lemma finds_otherStatement (hk : opensOther (kind ts) = true) :
    Finds stop (10 * ts.length + 10) (otherStatement stop ts) fun n =>
      Stating stop (.statement n) ts := by
  refine Yields.forget ((finds_expression stop ts).bind fun e r₁ _ he =>
    (finds_expect _).bind fun u r₂ _ hu => ?_)
  obtain ⟨hu, rfl, hr⟩ := hu
  exact .pure (.other hk he hu hr)

end

/-- What the rules of statements make of some tokens. -/
structure SoundStatements (stop : Stop) (bound : Nat) (ts : List Token) : Prop where
  statement : Finds stop bound (statement stop ts) fun n => Stating stop (.statement n) ts
  block : Finds stop bound (block stop ts) fun n => Stating stop (.block n) ts
  statements : Finds stop bound (statements stop ts) fun ns => Stating stop (.statements ns) ts

section

variable {stop : Stop} (ih : ∀ ts' : List Token, ts'.length < ts.length →
  SoundStatements stop (10 * ts.length + 2) ts')
include ih

lemma definition_sound : Finds stop (10 * ts.length + 10) (definition stop ts) fun n =>
    Stating stop (.statement n) ts := by
  rw [definition]
  refine (finds_expect _).bind fun t r₁ h₁ ht =>
    ((Finds.call finds_typeName).le (by omega)).bind fun returns r₂ h₂ hreturns => ?_
  refine (finds_expect _).bind fun u r₃ h₃ hu => (finds_expect _).bind fun v r₄ h₄ hv => ?_
  refine (Finds.le finds_parameters (by omega)).bind fun ps r₅ h₅ hps =>
    (finds_expect _).bind fun w r₆ h₆ hw => ?_
  refine ((ih r₆ (by omega)).block.le (by omega)).bind fun body r₇ _ hbody => ?_
  obtain ⟨ht, rfl, -⟩ := ht
  obtain ⟨hu, rfl, -⟩ := hu
  obtain ⟨hv, rfl, -⟩ := hv
  obtain ⟨hw, rfl, -⟩ := hw
  exact .pure (.define ht hreturns hu hv hps hw hbody)

lemma branch_sound : Finds stop (10 * ts.length + 10) (branch stop ts) fun n =>
    Stating stop (.statement n) ts := by
  rw [branch]
  refine (finds_expect _).bind fun t r₁ h₁ ht =>
    (Finds.le finds_condition (by omega)).bind fun c r₂ h₂ hc => ?_
  refine ((ih r₂ (by omega)).block.le (by omega)).bind fun body r₃ h₃ hbody => ?_
  obtain ⟨ht, rfl, -⟩ := ht
  dsimp only
  split
  · refine (finds_expect _).bind fun u r₄ h₄ hu =>
      ((ih r₄ (by omega)).block.le (by omega)).bind fun other r₅ _ hother => ?_
    obtain ⟨hu, rfl, -⟩ := hu
    exact .pure (.branchElse ht hc hbody hu hother)
  · rename_i hk
    exact .pure (.branch ht hc hbody hk)

lemma loop_sound : Finds stop (10 * ts.length + 10) (loop stop ts) fun n =>
    Stating stop (.statement n) ts := by
  rw [loop]
  refine (finds_expect _).bind fun t r₁ h₁ ht =>
    (Finds.le finds_condition (by omega)).bind fun c r₂ h₂ hc => ?_
  refine ((ih r₂ (by omega)).block.le (by omega)).bind fun body r₃ _ hbody => ?_
  obtain ⟨ht, rfl, -⟩ := ht
  exact .pure (.loop ht hc hbody)

lemma statement_sound :
    Finds stop (10 * ts.length + 12) (statement stop ts) fun n =>
      Stating stop (.statement n) ts := by
  rw [statement]
  refine Yields.call (Yields.call ?_)
  split
  · exact definition_sound ih
  · exact branch_sound ih
  · exact loop_sound ih
  · exact finds_returnStatement
  · rename_i k hfunc hif hwhile hreturn hk
    split
    · rename_i hopens
      exact finds_declaration hk hopens
    · rename_i hopens
      refine finds_otherStatement ?_
      rw [hk]
      cases k <;> simp_all [opensOther]
  · rename_i hk
    exact finds_nameStatement hk
  · rename_i hword hname
    refine finds_otherStatement ?_
    cases hk : kind ts with
    | keyword k => exact absurd hk (hword k)
    | identifier => exact absurd hk hname
    | _ => rfl

lemma block_sound : Finds stop (10 * ts.length + 3) (block stop ts) fun n =>
    Stating stop (.block n) ts := by
  rw [block]
  refine Yields.call ((finds_expect _).bind fun t r₁ h₁ ht =>
    (ih r₁ h₁).statements.bind fun ns r₂ _ hns => ?_)
  refine (finds_expect _).bind fun u r₃ _ hu => ?_
  obtain ⟨ht, rfl, -⟩ := ht
  obtain ⟨hu, rfl, hr⟩ := hu
  exact .pure (.block ht hns hu hr)

lemma statements_sound :
    Finds stop (10 * ts.length + 12) (statements stop ts) fun ns =>
      Stating stop (.statements ns) ts := by
  rw [statements]
  split
  · rename_i hk
    exact .pure (.noStatements hk)
  · rename_i hk
    refine (statement_sound ih).bind fun n r₁ h₁ hn => ?_
    exact ((ih r₁ h₁).statements.le (by omega)).bind fun ns r₂ _ hns =>
      .pure (.statements hk hn hns)

end

/-- Whatever the rules of statements answer with is read, and their errors are those that they may
raise. -/
lemma soundStatements (stop : Stop) (ts : List Token) :
    SoundStatements stop (10 * ts.length + 12) ts := by
  induction hN : ts.length using Nat.strongRecOn generalizing ts with
  | ind N shorter =>
    subst hN
    have ih : ∀ ts' : List Token, ts'.length < ts.length →
        SoundStatements stop (10 * ts.length + 2) ts' := by
      intro ts' h
      obtain ⟨hstatement, hblock, hstatements⟩ := shorter _ h ts' rfl
      exact ⟨hstatement.le (by omega), hblock.le (by omega), hstatements.le (by omega)⟩
    exact ⟨statement_sound ih, (block_sound ih).le (by omega), statements_sound ih⟩

lemma yields_topLevel (stop : Stop) (ts : List Token) :
    Yields stop (10 * ts.length + 12) (topLevel stop ts) fun ns =>
      Stating stop (.topLevel ns) ts [] := by
  fun_induction topLevel stop ts with
  | case1 => exact .pure .finish
  | case2 t r ih =>
    refine (soundStatements stop _).statement.bind fun n r₁ h₁ hn => ?_
    exact ((ih r₁ h₁).le (by omega)).bind fun ns hns => .pure (.topLevel hn hns)

/-- The statements of a program go on to the end of the text. -/
lemma yields_ofTokens (tokens : Tokens) :
    Yields tokens.stop (10 * tokens.tokens.length + 12) (Program.ofTokensCounted tokens) fun n =>
      ∃ ns, n = .program ⟨(ns.head?.map Node.start).getD (position tokens.stop []),
        position tokens.stop []⟩
          (definitionIndexes ns) ns ∧
        reach tokens.stop tokens.tokens = .ok () ∧
          Stating tokens.stop (.topLevel ns) tokens.tokens [] := by
  unfold Program.ofTokensCounted
  exact yields_reach.bind fun _ hr => (yields_topLevel _ _).bind fun ns hns =>
    .pure ⟨ns, rfl, hr, hns⟩

/-! ## Statements, the other way round -/

/-- The rule makes the clause of the tokens and leaves the rest. -/
abbrev Clause.IsParsed (end_ : Position) (ts r : List Token) : Clause → Prop
  | .type n => Reads (typeName (.ok end_) ts) n r
  | .parameter n => Reads (Parser.parameter (.ok end_) ts) n r
  | .parameters ps => Reads (Parser.parameters (.ok end_) ts) ps r
  | .moreParameters ps => Reads (Parser.moreParameters (.ok end_) ts) ps r
  | .condition n => Reads (Parser.condition (.ok end_) ts) n r
  | .statement n => Reads (Parser.statement (.ok end_) ts) n r
  | .block n => Reads (Parser.block (.ok end_) ts) n r
  | .statements ns => Reads (Parser.statements (.ok end_) ts) ns r
  | .topLevel ns => (Parser.topLevel (.ok end_) ts).result = .ok ns

lemma statement_of_opensDeclaration {stop : Stop} {k : Keyword} (hk : kind ts = .keyword k)
    (hopens : opensDeclaration k = true) :
    statement stop ts = .call (.call (declaration stop ts)) := by
  rw [statement]
  simp only [hk]
  cases k <;> first | rfl | cases hopens

lemma statement_of_opensOther {stop : Stop} (hk : opensOther (kind ts) = true) :
    statement stop ts = .call (.call (otherStatement stop ts)) := by
  rw [statement]
  split
  · rename_i h
    rw [h] at hk
    cases hk
  · rename_i h
    rw [h] at hk
    cases hk
  · rename_i h
    rw [h] at hk
    cases hk
  · rename_i h
    rw [h] at hk
    cases hk
  · rename_i k _ _ _ _ h
    rw [h] at hk
    cases k <;> first | rfl | cases hk
  · rename_i h
    rw [h] at hk
    cases hk
  · rfl

/-- Whatever is read of types and statements, the rules answer with. -/
lemma Stating.isParsed {end_ : Position} {clause : Clause} {ts r : List Token}
    (h : Stating (.ok end_) clause ts r) : clause.IsParsed end_ ts r := by
  induction h with
  | @simpleType k t r ht hk =>
    rw [Clause.IsParsed, typeName]
    split
    · rename_i hlist
      cases ht.symm.trans hlist
      cases hk
    · rename_i hword
      cases ht.symm.trans hword
      rw [if_pos hk]
      exact .reach ⟨_, rfl⟩
    · rename_i hother
      exact absurd ht (hother k)
  | @listType e t u v ts r ht hu _ hv he =>
    obtain ⟨x, q⟩ := t
    cases ht
    rw [Clause.IsParsed, typeName]
    exact .reach ((reads_expect hu).bind fun _ => he.call.bind fun _ =>
      (reads_expect hv).bind fun _ => ⟨_, rfl⟩)
  | parameter _ hu htype =>
    rw [Clause.IsParsed, Parser.parameter]
    exact htype.call.bind fun _ => (reads_expect hu).bind fun _ => ⟨_, rfl⟩
  | noParameters h =>
    rw [Clause.IsParsed, Parser.parameters, if_pos h]
    exact .call ⟨_, rfl⟩
  | parameters hk _ _ hp hps =>
    rw [Clause.IsParsed, Parser.parameters, if_neg hk]
    exact .call <| hp.bind fun _ => hps.bind fun _ => ⟨_, rfl⟩
  | @parametersEnd r h =>
    cases r with
    | nil =>
      rw [Clause.IsParsed, Parser.moreParameters]
      exact ⟨_, rfl⟩
    | cons t r =>
      have ht : t.kind ≠ .symbol .comma := h
      rw [Clause.IsParsed, Parser.moreParameters, if_neg ht]
      exact ⟨_, rfl⟩
  | moreParameters ht _ _ hp hps =>
    rw [Clause.IsParsed, Parser.moreParameters, if_pos ht]
    exact .reach (hp.bind fun _ => hps.bind fun _ => ⟨_, rfl⟩)
  | condition ht he hu =>
    have he := he.isParsedExpression end_
    rw [Clause.IsParsed, Parser.condition]
    exact (reads_expect ht).bind fun _ => he.bind fun _ => (reads_expect hu).bind fun _ => ⟨_, rfl⟩
  | declare hk hopens _ ht hu he hv _ htype =>
    have he := he.isParsedExpression end_
    rw [Clause.IsParsed, statement_of_opensDeclaration hk hopens, declaration]
    exact .call <| .call <| htype.call.bind fun _ => (reads_expect ht).bind fun _ =>
      (reads_expect hu).bind fun _ =>
      he.bind fun _ => (reads_expect hv).bind fun _ => ⟨_, rfl⟩
  | @giveBack t u r ht hu _ =>
    have hk : kind (t :: u :: r) = .keyword .return_ := ht
    rw [Clause.IsParsed, statement]
    simp only [hk]
    rw [returnStatement]
    refine .call <| .call <| (reads_expect ht).bind fun _ => ?_
    have hu' : kind (u :: r) = .symbol .semicolon := hu
    simp only [if_pos hu']
    exact (reads_expect hu).bind fun _ => ⟨_, rfl⟩
  | @giveBackValue e t u ts r ht hk he hu _ =>
    have hword : kind (t :: ts) = .keyword .return_ := ht
    have he := he.isParsedExpression end_
    rw [Clause.IsParsed, statement]
    simp only [hword]
    rw [returnStatement]
    refine .call <| .call <| (reads_expect ht).bind fun _ => ?_
    simp only [if_neg hk]
    exact he.bind fun _ => (reads_expect hu).bind fun _ => ⟨_, rfl⟩
  | @assign target e t u ts ts' r hk htarget ht his he hu _ =>
    have ht' : kind (t :: ts') = .symbol .assign := ht
    have htarget := htarget.isParsedExpression end_
    have he := he.isParsedExpression end_
    rw [Clause.IsParsed, statement]
    simp only [hk]
    rw [nameStatement]
    refine .call <| .call <| htarget.bind fun _ => ?_
    simp only [if_pos ht', if_pos his]
    exact (reads_expect ht).bind fun _ => he.bind fun _ => (reads_expect hu).bind fun _ => ⟨_, rfl⟩
  | @standing e u ts r hk he hu _ =>
    have hu' : kind (u :: r) ≠ .symbol .assign := by simp [kind, hu]
    have he := he.isParsedExpression end_
    rw [Clause.IsParsed, statement]
    simp only [hk]
    rw [nameStatement]
    refine .call <| .call <| he.bind fun _ => ?_
    simp only [if_neg hu']
    exact (reads_expect hu).bind fun _ => ⟨_, rfl⟩
  | @other e u ts r hk he hu _ =>
    have he := he.isParsedExpression end_
    rw [Clause.IsParsed, statement_of_opensOther hk, otherStatement]
    exact .call <| .call <| .forget <| he.bind fun _ => (reads_expect hu).bind fun _ => ⟨_, rfl⟩
  | @branch c body t ts r₁ r₂ ht _ _ hk hc hbody =>
    have hword : kind (t :: ts) = .keyword .if_ := ht
    rw [Clause.IsParsed, statement]
    simp only [hword]
    rw [Parser.branch]
    refine .call <| .call <| (reads_expect ht).bind fun _ => hc.bind fun _ => hbody.bind fun _ => ?_
    simp only [if_neg hk]
    exact ⟨_, rfl⟩
  | @branchElse c body other t u ts r₁ r₂ r₃ ht _ _ hu _ hc hbody hother =>
    have hword : kind (t :: ts) = .keyword .if_ := ht
    have helse : kind (u :: r₂) = .keyword .else_ := hu
    rw [Clause.IsParsed, statement]
    simp only [hword]
    rw [Parser.branch]
    refine .call <| .call <| (reads_expect ht).bind fun _ => hc.bind fun _ => hbody.bind fun _ => ?_
    simp only [if_pos helse]
    exact (reads_expect hu).bind fun _ => hother.bind fun _ => ⟨_, rfl⟩
  | @loop c body t ts r₁ r₂ ht _ _ hc hbody =>
    have hword : kind (t :: ts) = .keyword .while_ := ht
    rw [Clause.IsParsed, statement]
    simp only [hword]
    rw [Parser.loop]
    exact .call <| .call <| (reads_expect ht).bind fun _ => hc.bind fun _ => hbody.bind fun _ =>
      ⟨_, rfl⟩
  | @define returns ps body t u v w ts ts' r₁ r₂ ht _ hu hv _ hw _ hreturns hps hbody =>
    have hword : kind (t :: ts) = .keyword .func := ht
    rw [Clause.IsParsed, statement]
    simp only [hword]
    rw [definition]
    exact .call <| .call <| (reads_expect ht).bind fun _ => hreturns.call.bind fun _ =>
      (reads_expect hu).bind fun _ =>
      (reads_expect hv).bind fun _ => hps.bind fun _ => (reads_expect hw).bind fun _ =>
      hbody.bind fun _ => ⟨_, rfl⟩
  | block ht _ hu _ hns =>
    rw [Clause.IsParsed, Parser.block]
    exact .call <| (reads_expect ht).bind fun _ => hns.bind fun _ => (reads_expect hu).bind fun _ =>
      ⟨_, rfl⟩
  | noStatements h =>
    rw [Clause.IsParsed, Parser.statements, if_pos h]
    exact ⟨_, rfl⟩
  | statements hk _ _ hn hns =>
    rw [Clause.IsParsed, Parser.statements, if_neg hk]
    exact hn.bind fun _ => hns.bind fun _ => ⟨_, rfl⟩
  | finish =>
    rw [Clause.IsParsed, Parser.topLevel]
    rfl
  | topLevel _ _ hn hns =>
    obtain ⟨_, hn⟩ := hn
    rw [Clause.IsParsed, Parser.topLevel, result_bind hn, result_bind hns]
    rfl

end AudLang.Parser
