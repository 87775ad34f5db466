import ResumePointers.Lib.Post

/-! Computations that need a part of the state only: with more beside it they return the same, and
leave what is beside it. -/
namespace ResumePointers

variable {ε σ ο α β : Type} {ext : σ → ο → σ}

/-- What returns from a state does the same from every extension of it. -/
def Framed (ext : σ → ο → σ) (m : EStateM ε σ α) : Prop :=
  ∀ s a t, m s = .ok a t → ∀ o, m (ext s o) = .ok a (ext t o)

namespace Framed

variable {m : EStateM ε σ α}

theorem pure (a : α) : Framed ext (Pure.pure a : EStateM ε σ α) := by
  intro s b t h o
  cases h
  rfl

theorem bind {f : α → EStateM ε σ β} (hm : Framed ext m) (hf : ∀ a, Framed ext (f a)) :
    Framed ext (m >>= f) := by
  intro s b u h o
  simp only [Bind.bind,EStateM.bind] at h ⊢
  cases h₁ : m s with
  | error e t =>
    rw [h₁] at h
    cases h
  | ok a t =>
    rw [h₁] at h
    rw [hm s a t h₁ o]
    exact hf a t b u h o

theorem ite {p : Prop} [Decidable p] {m' : EStateM ε σ α} (hm : Framed ext m)
    (hm' : Framed ext m') : Framed ext (if p then m else m') := by
  split
  · exact hm
  · exact hm'

theorem modify {f : σ → σ} (hf : ∀ s o, f (ext s o) = ext (f s) o) :
    Framed ext (modify f : EStateM ε σ PUnit) := by
  intro s a t h o
  cases h
  exact congrArg (EStateM.Result.ok _) (hf s o)

/-- What is proved of a part of the state holds beside the rest. -/
theorem total (hm : Framed ext m) {s : σ} {Q : α → σ → Prop} (h : Total m s Q) (o : ο) :
    Total m (ext s o) fun a u => ∃ t, u = ext t o ∧ Q a t := by
  obtain ⟨a,t,ht,hq⟩ := h.exists_ok
  exact .of_run (hm s a t ht o) ⟨t,rfl,hq⟩

end Framed

end ResumePointers
