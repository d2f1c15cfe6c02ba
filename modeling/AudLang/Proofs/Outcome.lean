import Mathlib.Tactic.Lemma

/-!
How computations end.

A step of a checker or a machine answers or stops, and leaves a state either way.  `Ends r Q E` says
that the outcome `r` is an answer with `Q` or a stop with `E`.  A sequence of two steps is taken
apart in one of two ways: forward, by `Ends.bind`, when something is to be shown about its outcome,
and backward, by `ok_of_bind` and `error_of_bind`, when its outcome is known.
-/

namespace AudLang

variable {ε σ α β : Type}

/-! ## Computations without a state -/

lemma answer_of_bind {x : Except ε α} {f : α → Except ε β} {b : β}
    (h : (x >>= f) = .ok b) : ∃ a, x = .ok a ∧ f a = .ok b := by
  cases hx : x with
  | error e => rw [hx] at h; exact absurd h (by simp [bind, Except.bind])
  | ok a => rw [hx] at h; exact ⟨a, rfl, h⟩

lemma bind_of_answer {x : Except ε α} {f : α → Except ε β} {a : α} (h : x = .ok a) :
    (x >>= f) = f a := by
  rw [h]
  rfl

/-- What holds of the error of a computation that has not answered. -/
def Raises (P : ε → Prop) : Except ε α → Prop
  | .ok _ => True
  | .error e => P e

namespace Raises

variable {P : ε → Prop}

lemma ok (a : α) : Raises P (.ok a : Except ε α) := trivial

lemma error {e : ε} (h : P e) : Raises P (.error e : Except ε α) := h

lemma bind {x : Except ε α} {f : α → Except ε β} (hx : Raises P x) (hf : ∀ a, Raises P (f a)) :
    Raises P (x >>= f) := by
  cases x with
  | ok a => exact hf a
  | error e => exact error hx

/-- A computation whose answer is only put into another form. -/
lemma map {x : Except ε α} (hx : Raises P x) (f : α → β) : Raises P (do return f (← x)) :=
  hx.bind fun _ => ok _

end Raises

/-! ## Computations with a state -/

/-- What holds once a step has ended: `Q` of an answer, `E` of a stop. -/
def Ends (r : EStateM.Result ε σ α) (Q : α → σ → Prop) (E : ε → σ → Prop) : Prop :=
  match r with
  | .ok a s => Q a s
  | .error e s => E e s

lemma bind_run (x : EStateM ε σ α) (f : α → EStateM ε σ β) (s : σ) :
    (x >>= f) s = match x s with
      | .ok a s' => f a s'
      | .error e s' => .error e s' := rfl

@[simp] lemma pure_run (a : α) (s : σ) : (pure a : EStateM ε σ α) s = .ok a s := rfl

@[simp] lemma get_run (s : σ) : (get : EStateM ε σ σ) s = .ok s s := rfl

@[simp] lemma set_run (s s' : σ) : (set s' : EStateM ε σ PUnit) s = .ok ⟨⟩ s' := rfl

@[simp] lemma modify_run (f : σ → σ) (s : σ) :
    (modify f : EStateM ε σ PUnit) s = .ok ⟨⟩ (f s) := rfl

@[simp] lemma throw_run (e : ε) (s : σ) : (throw e : EStateM ε σ α) s = .error e s := rfl

lemma tryCatch_run (x : EStateM ε σ α) (handle : ε → EStateM ε σ α) (s : σ) :
    (tryCatch x handle : EStateM ε σ α) s = match x s with
      | .ok a s' => .ok a s'
      | .error e s' => handle e s' := by
  show EStateM.tryCatch x handle s = _
  unfold EStateM.tryCatch
  cases x s <;> rfl

/-- Two steps have answered when each of them has. -/
lemma ok_of_bind {x : EStateM ε σ α} {f : α → EStateM ε σ β} {s s'' : σ} {b : β}
    (h : (x >>= f) s = .ok b s'') : ∃ a s', x s = .ok a s' ∧ f a s' = .ok b s'' := by
  rw [bind_run] at h
  cases hx : x s with
  | error e s' => rw [hx] at h; exact absurd h (by simp)
  | ok a s' => rw [hx] at h; exact ⟨a, s', rfl, h⟩

/-- Two steps have stopped when the first of them has, or the second behind an answer of the
first. -/
lemma error_of_bind {x : EStateM ε σ α} {f : α → EStateM ε σ β} {s s'' : σ} {e : ε}
    (h : (x >>= f) s = .error e s'') :
    x s = .error e s'' ∨ ∃ a s', x s = .ok a s' ∧ f a s' = .error e s'' := by
  rw [bind_run] at h
  cases hx : x s with
  | error e' s' =>
    rw [hx] at h
    injection h with he hs
    exact .inl (by rw [he, hs])
  | ok a s' => rw [hx] at h; exact .inr ⟨a, s', rfl, h⟩

lemma bind_of_ok {x : EStateM ε σ α} {f : α → EStateM ε σ β} {s s' : σ} {a : α}
    (h : x s = .ok a s') : (x >>= f) s = f a s' := by rw [bind_run, h]

lemma bind_of_error {x : EStateM ε σ α} {f : α → EStateM ε σ β} {s s' : σ} {e : ε}
    (h : x s = .error e s') : (x >>= f) s = .error e s' := by rw [bind_run, h]

namespace Ends

lemma ok {r : EStateM.Result ε σ α} {Q : α → σ → Prop} {E : ε → σ → Prop} {a : α} {s : σ}
    (h : Ends r Q E) (hr : r = .ok a s) : Q a s := by subst hr; exact h

lemma error {r : EStateM.Result ε σ α} {Q : α → σ → Prop} {E : ε → σ → Prop} {e : ε} {s : σ}
    (h : Ends r Q E) (hr : r = .error e s) : E e s := by subst hr; exact h

lemma weaken {r : EStateM.Result ε σ α} {Q Q' : α → σ → Prop} {E E' : ε → σ → Prop}
    (h : Ends r Q E) (hQ : ∀ a s, r = .ok a s → Q a s → Q' a s)
    (hE : ∀ e s, r = .error e s → E e s → E' e s) : Ends r Q' E' := by
  cases r with
  | ok a s => exact hQ a s rfl h
  | error e s => exact hE e s rfl h

lemma mono_error {r : EStateM.Result ε σ α} {Q : α → σ → Prop} {E E' : ε → σ → Prop}
    (h : Ends r Q E)
    (hE : ∀ e s, E e s → E' e s) : Ends r Q E' := h.weaken (fun _ _ _ h => h) fun e s _ => hE e s

/-- To show something of two steps, show it of the second from where the first ends. -/
lemma bind {x : EStateM ε σ α} {f : α → EStateM ε σ β} {s : σ} {R : α → σ → Prop}
    {Q : β → σ → Prop} {E : ε → σ → Prop} (hx : Ends (x s) R E)
    (hf : ∀ a s', x s = .ok a s' → R a s' → Ends (f a s') Q E) : Ends ((x >>= f) s) Q E := by
  rw [bind_run]
  cases h : x s with
  | error e s' => rw [h] at hx; exact hx
  | ok a s' => rw [h] at hx; exact hf a s' h hx

lemma and {r : EStateM.Result ε σ α} {Q Q' : α → σ → Prop} {E E' : ε → σ → Prop} (h : Ends r Q E)
    (h' : Ends r Q' E') : Ends r (fun a s => Q a s ∧ Q' a s) (fun e s => E e s ∧ E' e s) := by
  cases r with
  | ok a s => exact ⟨h, h'⟩
  | error e s => exact ⟨h, h'⟩

/-- Where nothing is asked of a stop, only the last of some steps matters. -/
lemma bind_last {x : EStateM ε σ α} {f : α → EStateM ε σ β} {s : σ} {Q : β → σ → Prop}
    (hf : ∀ a s', Ends (f a s') Q fun _ _ => True) : Ends ((x >>= f) s) Q fun _ _ => True := by
  rw [bind_run]
  cases x s with
  | error e s' => trivial
  | ok a s' => exact hf a s'

end Ends

end AudLang
