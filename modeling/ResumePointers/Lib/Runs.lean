import ResumePointers.Lib.Post

/-! Runs of a machine that executes one operation after another, and the
induction that carries an invariant along them. -/
namespace ResumePointers

variable {ε σ τ α Op : Type}

/-- The states a machine reaches from `init` by completed operations, each of
which met `ok` in the state it was started in. -/
inductive Reach (step : Op → EStateM ε σ α) (ok : Op → σ → Prop) (init : σ → Prop) : σ → Prop
  | init {s : σ} (h : init s) : Reach step ok init s
  | step {s t : σ} {r : α} (op : Op) (h : Reach step ok init s) (hok : ok op s)
      (hs : step op s = .ok r t) : Reach step ok init t

/-- What every initial state has and every completed operation preserves, every reached
state has. -/
theorem Reach.invariant {step : Op → EStateM ε σ α} {ok : Op → σ → Prop} {init I : σ → Prop}
    (hinit : ∀ s, init s → I s)
    (hstep : ∀ op s, I s → ok op s → Partial (step op) s fun _ t => I t)
    {s : σ} (h : Reach step ok init s) : I s := by
  induction h with
  | init h => exact hinit _ h
  | step op _ hok hs ih => exact (hstep op _ ih hok).of_ok hs

theorem Reach.mono {step : Op → EStateM ε σ α} {ok ok' : Op → σ → Prop} {init init' : σ → Prop}
    (hok : ∀ op s, ok op s → ok' op s) (hinit : ∀ s, init s → init' s)
    {s : σ} (h : Reach step ok init s) : Reach step ok' init' s := by
  induction h with
  | init h => exact .init (hinit _ h)
  | step op _ ho hs ih => exact .step op ih (hok _ _ ho) hs

/-- What is reached from a reached state is reached. -/
theorem Reach.trans {step : Op → EStateM ε σ α} {ok : Op → σ → Prop} {init : σ → Prop} {s t : σ}
    (h : Reach step ok init s) (h' : Reach step ok (· = s) t) : Reach step ok init t := by
  induction h' with
  | init he => subst he; exact h
  | step op _ hok hs ih => exact .step op ih hok hs

/-- Execute a list of operations, collecting the results. -/
def runOps (step : Op → EStateM ε σ α) : List Op → EStateM ε σ (List α)
  | [] => pure []
  | op::ops => do
    let r ← step op
    let rs ← runOps step ops
    pure (r::rs)

@[simp] theorem runOps_nil (step : Op → EStateM ε σ α) : runOps step [] = pure [] := rfl

/-- A completed run splits at its first operation. -/
theorem runOps_cons_ok {step : Op → EStateM ε σ α} {op : Op} {ops : List Op} {s t : σ}
    {rs : List α} (h : runOps step (op::ops) s = .ok rs t) :
    ∃ r s₁ rs', step op s = .ok r s₁ ∧ runOps step ops s₁ = .ok rs' t ∧ rs = r::rs' := by
  simp only [runOps,bind,EStateM.bind] at h
  cases h₁ : step op s with
  | error e s₁ => rw [h₁] at h; cases h
  | ok r s₁ =>
    rw [h₁] at h
    cases h₂ : runOps step ops s₁ with
    | error e s₂ => simp only [h₂] at h; cases h
    | ok rs' s₂ =>
      simp only [h₂,pure,EStateM.pure,EStateM.Result.ok.injEq] at h
      obtain ⟨rfl,rfl⟩ := h
      exact ⟨r,s₁,rs',rfl,h₂,rfl⟩

/-- A completed run splits at its last operation. -/
theorem runOps_concat_ok {step : Op → EStateM ε σ α} {op : Op} {ops : List Op} {s t : σ}
    {rs : List α} : runOps step (ops ++ [op]) s = .ok rs t ↔ ∃ rs' s₁ r,
      runOps step ops s = .ok rs' s₁ ∧ step op s₁ = .ok r t ∧ rs = rs' ++ [r] := by
  induction ops generalizing s rs with
  | nil =>
    constructor
    · intro h
      obtain ⟨r,s₁,rs',h₁,h₂,rfl⟩ := runOps_cons_ok h
      cases h₂
      exact ⟨[],s,r,rfl,h₁,rfl⟩
    · rintro ⟨_,_,r,h₁,h₂,rfl⟩
      cases h₁
      simp only [List.nil_append,runOps,bind,EStateM.bind,h₂]
      rfl
  | cons o ops ih =>
    constructor
    · intro h
      obtain ⟨r,s₁,rs',h₁,h₂,rfl⟩ := runOps_cons_ok h
      obtain ⟨rs'',s₂,r',h₃,h₄,rfl⟩ := ih.mp h₂
      refine ⟨r::rs'',s₂,r',?_,h₄,rfl⟩
      simp only [runOps,bind,EStateM.bind,h₁,h₃]
      rfl
    · rintro ⟨rs',s₁,r,h₁,h₂,rfl⟩
      obtain ⟨r',s₂,rs'',h₃,h₄,rfl⟩ := runOps_cons_ok h₁
      have hrest := ih.mpr ⟨rs'',s₁,r,h₄,h₂,rfl⟩
      simp only [List.cons_append,runOps,bind,EStateM.bind,h₃,hrest]
      rfl

/-- The operations at the start of a completed run are a completed run. -/
theorem exists_run_prefix {step : Op → EStateM ε σ α} {p ops : List Op} {s t : σ} {rs : List α}
    (h : runOps step ops s = .ok rs t) (hp : p <+: ops) :
    ∃ rs' t', runOps step p s = .ok rs' t' := by
  obtain ⟨rest,rfl⟩ := hp
  induction p generalizing s rs with
  | nil => exact ⟨[],s,rfl⟩
  | cons op p ih =>
    obtain ⟨r,s₁,rs',hop,hrest,-⟩ := runOps_cons_ok h
    obtain ⟨rs'',t',hp⟩ := ih hrest
    refine ⟨r::rs'',t',?_⟩
    simp only [runOps,bind,EStateM.bind,hop,hp]
    rfl

theorem Reach.runOps {step : Op → EStateM ε σ α} {init : σ → Prop} {ops : List Op} {s t : σ}
    {rs : List α} (hs : Reach step (fun _ _ => True) init s)
    (h : ResumePointers.runOps step ops s = .ok rs t) :
    Reach step (fun _ _ => True) init t := by
  induction ops generalizing s rs with
  | nil =>
    obtain ⟨rfl,rfl⟩ : [] = rs ∧ s = t := by
      simpa [ResumePointers.runOps,pure,EStateM.pure] using h
    exact hs
  | cons op ops ih =>
    obtain ⟨r,s₁,rs',h₁,h₂,-⟩ := runOps_cons_ok h
    exact ih (.step op hs trivial h₁) h₂

/-- The test that the operations complete from `s`, each started where `ok` allows it, and end with
`p`. -/
def reaches (step : Op → EStateM ε σ α) (ok : Op → σ → Prop) [∀ op s, Decidable (ok op s)]
    (p : σ → Bool) : List Op → σ → Bool
  | [], s => p s
  | op::ops, s => decide (ok op s) && returns (step op) s fun _ t => reaches step ok p ops t

theorem exists_of_reaches {step : Op → EStateM ε σ α} {ok : Op → σ → Prop}
    [∀ op s, Decidable (ok op s)] {p : σ → Bool} {init : σ → Prop} {ops : List Op} {s : σ}
    (hs : Reach step ok init s) (h : reaches step ok p ops s = true) :
    ∃ t, Reach step ok init t ∧ p t = true := by
  induction ops generalizing s with
  | nil => exact ⟨s,hs,h⟩
  | cons op ops ih =>
    obtain ⟨hok,hret⟩ := (Bool.and_eq_true _ _).mp h
    obtain ⟨r,t,hop,hrest⟩ := exists_of_returns hret
    exact ih (.step op hs (of_decide_eq_true hok) hop) hrest

/-- If no operation of the list fails where `I` holds, and each keeps `I`, then the run is
completed. -/
theorem runOps_total {step : Op → EStateM ε σ α} {ok : Op → Prop} {I : σ → Prop}
    (hstep : ∀ op s, ok op → I s → Total (step op) s fun _ t => I t)
    {ops : List Op} {s : σ} (hok : ∀ op ∈ ops, ok op) (hI : I s) :
    Total (runOps step ops) s fun _ t => I t := by
  induction ops generalizing s with
  | nil => exact hI
  | cons op ops ih =>
    rw [runOps,Total,post_bind]
    refine (hstep op s (hok op (by simp)) hI).imp fun r t ht => ?_
    rw [post_bind]
    exact (ih (fun o ho => hok o (by simp [ho])) ht).imp fun _ _ h => h

/-- The run of a machine that is a function. -/
def runPure (astep : Op → τ → α × τ) : List Op → τ → List α × τ
  | [], a => ([],a)
  | op::ops, a =>
    let r := astep op a
    let rs := runPure astep ops r.2
    (r.1::rs.1,rs.2)

theorem runPure_concat (astep : Op → τ → α × τ) (ops : List Op) (op : Op) (a : τ) :
    runPure astep (ops ++ [op]) a = ((runPure astep ops a).1 ++
      [(astep op (runPure astep ops a).2).1],(astep op (runPure astep ops a).2).2) := by
  induction ops generalizing a with
  | nil => rfl
  | cons o ops ih => simp only [List.cons_append,runPure,ih]

/-- Simulation along the state abstraction `f`. If every completed operation is answered
by the abstract one with the same result, unless it ends in a `bad` state, and bad states
stay bad, then every completed run that does not end in a bad state is answered. -/
theorem runOps_simulation {step : Op → EStateM ε σ α} {astep : Op → τ → α × τ} {ok : Op → Prop}
    {f : σ → τ} {I bad : σ → Prop}
    (hstep : ∀ op s, ok op → I s → Partial (step op) s fun r t =>
      I t ∧ (bad s → bad t) ∧ (¬ bad t → astep op (f s) = (r,f t)))
    {ops : List Op} {s t : σ} {rs : List α} (hok : ∀ op ∈ ops, ok op) (hI : I s)
    (h : runOps step ops s = .ok rs t) :
    I t ∧ (bad s → bad t) ∧ (¬ bad t → runPure astep ops (f s) = (rs,f t)) := by
  induction ops generalizing s rs with
  | nil =>
    obtain ⟨rfl,rfl⟩ : [] = rs ∧ s = t := by
      simpa [runOps,pure,EStateM.pure] using h
    exact ⟨hI,id,fun _ => rfl⟩
  | cons op ops ih =>
    obtain ⟨r,s₁,rs',h₁,h₂,rfl⟩ := runOps_cons_ok h
    obtain ⟨hI₁,hb₁,hs₁⟩ := (hstep op s (hok op (by simp)) hI).of_ok h₁
    obtain ⟨hI₂,hb₂,hs₂⟩ := ih (fun o ho => hok o (by simp [ho])) hI₁ h₂
    refine ⟨hI₂,hb₂ ∘ hb₁,fun hg => ?_⟩
    have hr := hs₁ fun hb => hg (hb₂ hb)
    rw [runPure,hr]
    dsimp only
    rw [hs₂ hg]

end ResumePointers
