import ResumePointers.Lib.Post

/-! Runs of labelled transition relations, and forward simulation of one by another. The labels of
the two runs agree in what is visible from outside. -/
namespace ResumePointers

variable {ε σ τ α Op L L' V : Type}

/-- The runs of a relation from `s`, with the labels of their steps. -/
inductive Trace (R : L → σ → σ → Prop) (s : σ) : List L → σ → Prop
  | nil : Trace R s [] s
  | snoc {ls : List L} {l : L} {t u : σ} (h : Trace R s ls t) (hl : R l t u) :
      Trace R s (ls ++ [l]) u

theorem Trace.single {R : L → σ → σ → Prop} {l : L} {s t : σ} (h : R l s t) : Trace R s [l] t :=
  show Trace R s ([] ++ [l]) t from .snoc .nil h

theorem Trace.append {R : L → σ → σ → Prop} {ls ls' : List L} {s t u : σ} (h : Trace R s ls t)
    (h' : Trace R t ls' u) : Trace R s (ls ++ ls') u := by
  induction h' with
  | nil => simpa using h
  | snoc _ hl ih => rw [← List.append_assoc]; exact .snoc ih hl

/-- What every step keeps, every run keeps. -/
theorem Trace.invariant {R : L → σ → σ → Prop} {I : σ → Prop}
    (hstep : ∀ l s t, I s → R l s t → I t) {ls : List L} {s t : σ} (h : Trace R s ls t)
    (hI : I s) : I t := by
  induction h with
  | nil => exact hI
  | snoc _ hl ih => exact hstep _ _ _ ih hl

/-- The completed operations of a machine, each started where `ok` allows it. -/
def Completes (step : Op → EStateM ε σ α) (ok : Op → σ → Prop) (op : Op) (s t : σ) : Prop :=
  ok op s ∧ ∃ r, step op s = .ok r t

theorem Completes.of_post {step : Op → EStateM ε σ α} {ok : Op → σ → Prop} {op : Op}
    {s t : σ} {Q : α → σ → Prop} {E : ε → σ → Prop} (h : Completes step ok op s t)
    (hp : ok op s → Post (step op) s Q E) : ∃ r, Q r t := by
  obtain ⟨hok,r,hr⟩ := h
  exact ⟨r,(hp hok).of_ok hr⟩

/-- The completed operations of a machine with their results. -/
def Yields (step : Op → EStateM ε σ α) (l : Op × α) (s t : σ) : Prop := step l.1 s = .ok l.2 t

theorem Yields.of_post {step : Op → EStateM ε σ α} {l : Op × α} {s t : σ} {Q : α → σ → Prop}
    {E : ε → σ → Prop} (h : Yields step l s t) (hp : Post (step l.1) s Q E) : Q l.2 t := hp.of_ok h

/-- Forward simulation. If every step from related states is answered by a run with the same visible
labels that ends in related states, then so is every run. -/
theorem Trace.simulates {R : L → σ → σ → Prop} {R' : L' → τ → τ → Prop} {I : σ → τ → Prop}
    {vis : L → Option V} {vis' : L' → Option V}
    (hstep : ∀ l s s' t, I s t → R l s s' →
      ∃ ls t', Trace R' t ls t' ∧ I s' t' ∧ ls.filterMap vis' = (vis l).toList)
    {ls : List L} {s s' : σ} {t : τ} (h : Trace R s ls s') (hI : I s t) :
    ∃ ls' t', Trace R' t ls' t' ∧ I s' t' ∧ ls'.filterMap vis' = ls.filterMap vis := by
  induction h with
  | nil => exact ⟨[],t,.nil,hI,rfl⟩
  | @snoc ls l _ _ _ hl ih =>
    obtain ⟨ls₁,t₁,htr₁,hI₁,hv₁⟩ := ih
    obtain ⟨ls₂,t₂,htr₂,hI₂,hv₂⟩ := hstep l _ _ t₁ hI₁ hl
    refine ⟨ls₁ ++ ls₂,t₂,htr₁.append htr₂,hI₂,?_⟩
    rw [List.filterMap_append,List.filterMap_append,hv₁,hv₂]
    cases h : vis l <;> simp [h]

end ResumePointers
