import Mathlib.Logic.Function.Basic

/-! Pre- and postconditions for computations that carry a state and may stop
with an error. The state at the time of the error is kept, so a postcondition can
speak about it too. -/
namespace ResumePointers

variable {ε σ τ α β : Type}

/-- Started from `s`, `m` returns with `Q`, or it stops with `E`. -/
def Post (m : EStateM ε σ α) (s : σ) (Q : α → σ → Prop) (E : ε → σ → Prop) : Prop :=
  match m s with
  | .ok a t => Q a t
  | .error e t => E e t

/-- The errorless form: `m` returns, and with `Q`. -/
abbrev Total (m : EStateM ε σ α) (s : σ) (Q : α → σ → Prop) : Prop :=
  Post m s Q fun _ _ => False

/-- The partial form: if `m` returns at all, then with `Q`. -/
abbrev Partial (m : EStateM ε σ α) (s : σ) (Q : α → σ → Prop) : Prop :=
  Post m s Q fun _ _ => True

/-! These are equations, so that `simp only` uses them as they stand. -/

@[simp] theorem post_pure (a : α) (s : σ) (Q : α → σ → Prop) (E : ε → σ → Prop) :
    Post (pure a : EStateM ε σ α) s Q E = Q a s := propext Iff.rfl

@[simp] theorem post_throw (e : ε) (s : σ) (Q : α → σ → Prop) (E : ε → σ → Prop) :
    Post (throw e : EStateM ε σ α) s Q E = E e s := propext Iff.rfl

@[simp] theorem post_bind (m : EStateM ε σ α) (f : α → EStateM ε σ β) (s : σ)
    (Q : β → σ → Prop) (E : ε → σ → Prop) :
    Post (m >>= f) s Q E = Post m s (fun a t => Post (f a) t Q E) E := by
  simp only [Post,bind,EStateM.bind]
  cases m s <;> rfl

@[simp] theorem post_map (m : EStateM ε σ α) (f : α → β) (s : σ)
    (Q : β → σ → Prop) (E : ε → σ → Prop) :
    Post (f <$> m) s Q E = Post m s (fun a t => Q (f a) t) E := by
  simp only [Post,Functor.map,EStateM.map]
  cases m s <;> rfl

@[simp] theorem post_get (s : σ) (Q : σ → σ → Prop) (E : ε → σ → Prop) :
    Post (get : EStateM ε σ σ) s Q E = Q s s := propext Iff.rfl

@[simp] theorem post_set (t s : σ) (Q : PUnit → σ → Prop) (E : ε → σ → Prop) :
    Post (set t : EStateM ε σ PUnit) s Q E = Q ⟨⟩ t := propext Iff.rfl

@[simp] theorem post_modify (f : σ → σ) (s : σ) (Q : PUnit → σ → Prop) (E : ε → σ → Prop) :
    Post (modify f : EStateM ε σ PUnit) s Q E = Q ⟨⟩ (f s) := propext Iff.rfl

theorem get_run (s : σ) : (get : EStateM ε σ σ) s = .ok s s := rfl

theorem get_bind_run (f : σ → EStateM ε σ β) (s : σ) : (get >>= f) s = f s s := rfl

theorem total_ofExcept {e : Except ε α} {a : α} {s : σ} {Q : α → σ → Prop} (h : e = .ok a)
    (hq : Q a s) : Total (ofExcept e : EStateM ε σ α) s Q := by
  subst h
  exact hq

/-- The rule of consequence. -/
theorem Post.mono {m : EStateM ε σ α} {s : σ} {Q Q' : α → σ → Prop} {E E' : ε → σ → Prop}
    (h : Post m s Q E) (hQ : ∀ a t, Q a t → Q' a t) (hE : ∀ e t, E e t → E' e t) :
    Post m s Q' E' := by
  unfold Post at h ⊢
  cases hm : m s with
  | ok a t => rw [hm] at h; exact hQ a t h
  | error e t => rw [hm] at h; exact hE e t h

/-- Consequence on the result alone. -/
theorem Post.imp {m : EStateM ε σ α} {s : σ} {Q Q' : α → σ → Prop} {E : ε → σ → Prop}
    (h : Post m s Q E) (hQ : ∀ a t, Q a t → Q' a t) : Post m s Q' E :=
  h.mono hQ fun _ _ he => he

/-- A computation that never stops with an error meets any error condition. -/
theorem Total.post {m : EStateM ε σ α} {s : σ} {Q Q' : α → σ → Prop} {E : ε → σ → Prop}
    (h : Total m s Q) (hQ : ∀ a t, Q a t → Q' a t) : Post m s Q' E :=
  h.mono hQ fun _ _ he => he.elim

/-- What holds of every result holds of those that a computation returns with. -/
theorem Partial.of_forall {m : EStateM ε σ α} {s : σ} {Q : α → σ → Prop} (h : ∀ a t, Q a t) :
    Partial m s Q := by
  unfold Partial Post
  split
  · exact h _ _
  · trivial

/-- What holds at the end in any case holds. -/
theorem Post.const {m : EStateM ε σ α} {s : σ} {p : Prop} (h : Post m s (fun _ _ => p) fun _ _ => p) :
    p := by
  unfold Post at h
  split at h <;> exact h

theorem Post.and {m : EStateM ε σ α} {s : σ} {Q Q' : α → σ → Prop} {E E' : ε → σ → Prop}
    (h : Post m s Q E) (h' : Post m s Q' E') :
    Post m s (fun a t => Q a t ∧ Q' a t) fun e t => E e t ∧ E' e t := by
  unfold Post at h h' ⊢
  cases hm : m s with
  | ok a t => rw [hm] at h h'; exact ⟨h,h'⟩
  | error e t => rw [hm] at h h'; exact ⟨h,h'⟩

/-- One specification without errors is enough for both to hold without errors. -/
theorem Total.and_post {m : EStateM ε σ α} {s : σ} {Q Q' : α → σ → Prop} {E : ε → σ → Prop}
    (h : Total m s Q) (h' : Post m s Q' E) : Total m s fun a t => Q a t ∧ Q' a t :=
  (Post.and h h').mono (fun _ _ hq => hq) fun _ _ he => he.1

theorem Post.of_ok {m : EStateM ε σ α} {s t : σ} {a : α} {Q : α → σ → Prop} {E : ε → σ → Prop}
    (h : Post m s Q E) (hm : m s = .ok a t) : Q a t := by
  rw [Post,hm] at h; exact h

theorem Post.of_run {m : EStateM ε σ α} {s t : σ} {a : α} {Q : α → σ → Prop} {E : ε → σ → Prop}
    (hm : m s = .ok a t) (h : Q a t) : Post m s Q E := by
  rw [Post,hm]; exact h

theorem Post.of_error {m : EStateM ε σ α} {s t : σ} {e : ε} {Q : α → σ → Prop}
    {E : ε → σ → Prop} (h : Post m s Q E) (hm : m s = .error e t) : E e t := by
  rw [Post,hm] at h; exact h

theorem Total.exists_ok {m : EStateM ε σ α} {s : σ} {Q : α → σ → Prop} (h : Total m s Q) :
    ∃ a t, m s = .ok a t ∧ Q a t := by
  unfold Total Post at h
  cases hm : m s with
  | ok a t => rw [hm] at h; exact ⟨a,t,rfl,h⟩
  | error e t => rw [hm] at h; exact h.elim

/-- The test that `m` returns, with `p`. -/
def returns (m : EStateM ε σ α) (s : σ) (p : α → σ → Bool) : Bool :=
  match m s with
  | .ok a t => p a t
  | .error _ _ => false

theorem exists_of_returns {m : EStateM ε σ α} {s : σ} {p : α → σ → Bool}
    (h : returns m s p = true) : ∃ a t, m s = .ok a t ∧ p a t = true := by
  unfold returns at h
  cases hm : m s with
  | ok a t => rw [hm] at h; exact ⟨a,t,rfl,h⟩
  | error e t => rw [hm] at h; cases h

/-- Run a computation on a part of the state, reached by `get` and written back by `put`. -/
def zoom (get : σ → τ) (put : τ → σ → σ) (m : EStateM ε τ α) : EStateM ε σ α := fun s =>
  match m (get s) with
  | .ok a t => .ok a (put t s)
  | .error e t => .error e (put t s)

@[simp] theorem post_zoom (get : σ → τ) (put : τ → σ → σ) (m : EStateM ε τ α) (s : σ)
    (Q : α → σ → Prop) (E : ε → σ → Prop) :
    Post (zoom get put m) s Q E ↔
      Post m (get s) (fun a t => Q a (put t s)) fun e t => E e (put t s) := by
  simp only [Post,zoom]
  cases m (get s) <;> rfl

end ResumePointers
