import Mathlib
import ResumePointers.Lib.Clustering

/-! k-means (`ml_algos/pca_lda_kmeans/q3.py`) with exact rationals and squared distances. The mean
of no rows is nan, the bottom element here: a sum with it is nan and `argmin` takes it first. -/
namespace ResumePointers.Ml.KMeans

variable {N n_clusters d : ℕ}

/-- The data set, a row for each sample. -/
abbrev Data (N d : ℕ) := Fin N → Fin d → ℚ

abbrev Centroids (n_clusters d : ℕ) := Fin n_clusters → Fin d → WithBot ℚ

/-- The square of `np.linalg.norm(point - centroid)`. -/
def distance (point : Fin d → ℚ) (centroid : Fin d → WithBot ℚ) : WithBot ℚ :=
  ∑ j, (centroid j).map fun y => (point j - y) ^ 2

/-- `np.argmin` over the centroids, which raises when there are none. -/
def nearest (centroids : Centroids n_clusters d) (point : Fin d → ℚ) : Option (Fin n_clusters) :=
  (List.finRange n_clusters).argmin fun i => distance point (centroids i)

def classification (X_train : Data N d) (centroids : Centroids n_clusters d) :
    Option (Fin N → Fin n_clusters) :=
  if h : ∀ m, (nearest centroids (X_train m)).isSome then
    some fun m => (nearest centroids (X_train m)).get (h m)
  else none

/-- `np.mean` of the entries in these rows. -/
def mean (rows : Finset (Fin N)) (column : Fin N → ℚ) : WithBot ℚ :=
  if rows.Nonempty then ↑(Clustering.average rows column) else ⊥

def newCentroids (X_train : Data N d) (classification : Fin N → Fin n_clusters) :
    Centroids n_clusters d :=
  fun i j => mean {m | classification m = i} fun m => X_train m j

/-- `np.array_equal`, for which nan differs from itself. -/
def arrayEqual (a b : Centroids n_clusters d) : Prop := ∀ i j, a i j ≠ ⊥ ∧ a i j = b i j

instance (a b : Centroids n_clusters d) : Decidable (arrayEqual a b) :=
  inferInstanceAs (Decidable (∀ _, _))

/-- The centroids that an iteration computes. -/
def iteration (X_train : Data N d) (centroids : Centroids n_clusters d) :
    Option (Centroids n_clusters d) :=
  (classification X_train centroids).map (newCentroids X_train)

/-- At most `max_iter` iterations, until the centroids stay the same. -/
def fit (X_train : Data N d) : ℕ → Centroids n_clusters d → Option (Centroids n_clusters d)
  | 0,centroids => some centroids
  | max_iter+1,centroids => (iteration X_train centroids).bind fun new_centroids =>
    if arrayEqual centroids new_centroids then some centroids
    else fit X_train max_iter new_centroids

/-- The centroids in front of an iteration of `fit`. -/
inductive Visited (X_train : Data N d) (init : Centroids n_clusters d) : Centroids n_clusters d → Prop
  | init : Visited X_train init init
  | step {centroids new_centroids : Centroids n_clusters d} (h : Visited X_train init centroids)
    (hstep : iteration X_train centroids = some new_centroids)
    (hne : ¬ arrayEqual centroids new_centroids) : Visited X_train init new_centroids

/-- The sum of the squared distances to the centroids that the points are assigned to. -/
def loss (X_train : Data N d) (centroids : Centroids n_clusters d)
    (classification : Fin N → Fin n_clusters) : WithBot ℚ :=
  ∑ m, distance (X_train m) (centroids (classification m))

section Arithmetic

variable {X_train : Data N d} {centroids : Centroids n_clusters d} {point : Fin d → ℚ}
  {c : Fin n_clusters → Fin d → ℚ} {cl : Fin N → Fin n_clusters} {i : Fin n_clusters}

/-- Centroids without nan. -/
def ofRat (c : Fin n_clusters → Fin d → ℚ) : Centroids n_clusters d := fun i j => c i j

theorem distance_coe (point y : Fin d → ℚ) :
    distance point (fun j => y j) = ↑(Clustering.sqDist point y) := by
  simp [distance,Clustering.sqDist,WithBot.coe_sum]

theorem distance_eq_bot {centroid : Fin d → WithBot ℚ} :
    distance point centroid = ⊥ ↔ ∃ j, centroid j = ⊥ := by
  simp [distance,WithBot.sum_eq_bot_iff]

theorem loss_ofRat : loss X_train (ofRat c) cl =
    ↑(Clustering.loss (fun m => Clustering.sqDist (X_train m)) c cl) := by
  rw [loss,Clustering.loss,WithBot.coe_sum]
  exact Finset.sum_congr rfl fun m _ => distance_coe _ _

theorem newCentroids_ofRat (h : Function.Surjective cl) : newCentroids X_train cl =
    ofRat fun i j => Clustering.average {m | cl m = i} fun m => X_train m j := by
  funext i j
  obtain ⟨m,hm⟩ := h i
  have hrows : ({m | cl m = i} : Finset (Fin N)).Nonempty := ⟨m,by simpa using hm⟩
  rw [newCentroids,mean,if_pos hrows,ofRat]

theorem nearest_le (h : nearest centroids point = some i) (i' : Fin n_clusters) :
    distance point (centroids i) ≤ distance point (centroids i') :=
  List.le_of_mem_argmin (f := fun i => distance point (centroids i)) (List.mem_finRange i') h

theorem nearest_isSome (i : Fin n_clusters) : (nearest centroids point).isSome := by
  rw [Option.isSome_iff_ne_none,nearest,ne_eq,List.argmin_eq_none]
  exact List.ne_nil_of_mem (List.mem_finRange i)

theorem classification_eq_some :
    classification X_train centroids = some cl ↔ ∀ m, nearest centroids (X_train m) = some (cl m) := by
  rw [classification]
  split
  · next h =>
    rw [Option.some_inj,funext_iff]
    exact forall_congr' fun m => ⟨fun h => by rw [← h,Option.some_get],fun h => by simp [h]⟩
  · next h =>
    simp only [reduceCtorEq,false_iff]
    exact fun hall => h fun m => by simp [hall m]

end Arithmetic

section Nan

variable {X_train : Data N d} {centroids : Centroids n_clusters d} {cl : Fin N → Fin n_clusters}
  {c₀ : Fin n_clusters → Fin d → ℚ} {i : Fin n_clusters} {j : Fin d}

/-- The nearest of the centroids is one with nan, when there is one. -/
theorem nearest_nan (hnan : centroids i j = ⊥) {point : Fin d → ℚ} {i' : Fin n_clusters}
    (h : nearest centroids point = some i') : ∃ j', centroids i' j' = ⊥ := by
  have hbot : distance point (centroids i) = ⊥ := distance_eq_bot.mpr ⟨j,hnan⟩
  have hle := nearest_le h i
  rw [hbot,le_bot_iff] at hle
  exact distance_eq_bot.mp hle

/-- With a nan all points have the same nearest centroid. -/
theorem nearest_unique (hnan : centroids i j = ⊥) {p q : Fin d → ℚ} {a b : Fin n_clusters}
    (ha : nearest centroids p = some a) (hb : nearest centroids q = some b) : a = b := by
  have hle {p q : Fin d → ℚ} {a b : Fin n_clusters} (ha : nearest centroids p = some a)
      (hb : nearest centroids q = some b) :
      (List.finRange n_clusters).idxOf a ≤ (List.finRange n_clusters).idxOf b := by
    have hbot : distance p (centroids b) = ⊥ := distance_eq_bot.mpr (nearest_nan hnan hb)
    obtain ⟨-,-,hfirst⟩ := List.argmin_eq_some_iff.mp ha
    apply hfirst b (List.mem_finRange b)
    rw [hbot]
    exact bot_le
  have hidx := le_antisymm (hle ha hb) (hle hb ha)
  exact (List.idxOf_inj (List.mem_finRange a)).mp hidx

/-- Only an empty cluster gives nan. -/
theorem newCentroids_nan (h : newCentroids X_train cl i j = ⊥) : ∀ m, cl m ≠ i := by
  rintro m rfl
  have hrows : ({m' | cl m' = cl m} : Finset (Fin N)).Nonempty := ⟨m,by simp⟩
  rw [newCentroids,mean,if_pos hrows] at h
  exact WithBot.coe_ne_bot h

/-- Nan is there only without points or beside another cluster. -/
theorem Visited.nan (h : Visited X_train (ofRat c₀) centroids) (hnan : centroids i j = ⊥) :
    IsEmpty (Fin N) ∨ Nontrivial (Fin n_clusters) := by
  cases h with
  | init => exact absurd hnan WithBot.coe_ne_bot
  | step h hstep =>
    obtain ⟨cl,-,rfl⟩ := Option.map_eq_some_iff.mp hstep
    have hempty := newCentroids_nan hnan
    rcases isEmpty_or_nonempty (Fin N) with hN | ⟨⟨m⟩⟩
    · exact .inl hN
    · exact .inr ⟨cl m,i,hempty m⟩

/-- An iteration in which no cluster is empty starts without nan. -/
theorem Visited.exists_ofRat (h : Visited X_train (ofRat c₀) centroids)
    (hcl : classification X_train centroids = some cl) (hsurj : Function.Surjective cl) :
    ∃ c, centroids = ofRat c := by
  have hrat : ∀ i j, centroids i j ≠ ⊥ := by
    intro i j hnan
    rcases h.nan hnan with hempty | ⟨a,b,hab⟩
    · obtain ⟨m,-⟩ := hsurj i
      exact hempty.elim m
    · obtain ⟨m,rfl⟩ := hsurj a
      obtain ⟨m',rfl⟩ := hsurj b
      rw [classification_eq_some] at hcl
      exact hab (nearest_unique hnan (hcl m) (hcl m'))
  exact ⟨fun i j => (centroids i j).unbot (hrat i j),by
    funext i j
    exact (WithBot.coe_unbot _ _).symm⟩

/-- The iterations of `fit` start from visited centroids. -/
theorem fit_visited {init c c' : Centroids n_clusters d} {max_iter : ℕ}
    (h : Visited X_train init c) (hfit : fit X_train max_iter c = some c') :
    Visited X_train init c' := by
  induction max_iter generalizing c with
  | zero =>
    rw [fit,Option.some_inj] at hfit
    rwa [← hfit]
  | succ max_iter ih =>
    rw [fit] at hfit
    obtain ⟨new_centroids,hstep,hfit⟩ := Option.bind_eq_some_iff.mp hfit
    split at hfit
    · cases hfit
      exact h
    · next hne => exact ih (h.step hstep hne) hfit

end Nan

section Descent

variable {X_train : Data N d} {centroids : Centroids n_clusters d} {cl : Fin N → Fin n_clusters}
  {c₀ c : Fin n_clusters → Fin d → ℚ}

theorem sqDist_nearest_le {point : Fin d → ℚ} {i : Fin n_clusters}
    (h : nearest (ofRat c) point = some i) (i' : Fin n_clusters) :
    Clustering.sqDist point (c i) ≤ Clustering.sqDist point (c i') := by
  have hle : distance point (fun j => c i j) ≤ distance point fun j => c i' j := nearest_le h i'
  rw [distance_coe,distance_coe] at hle
  exact WithBot.coe_le_coe.mp hle

/-- The update of the centroids. -/
theorem loss_average_le (hsurj : Function.Surjective cl) :
    Clustering.loss (fun m => Clustering.sqDist (X_train m))
        (fun i j => Clustering.average {m | cl m = i} fun m => X_train m j) cl ≤
      Clustering.loss (fun m => Clustering.sqDist (X_train m)) c cl := by
  apply Clustering.loss_le_of_centre
  intro i
  obtain ⟨m,hm⟩ := hsurj i
  exact Clustering.sum_sqDist_average_le ⟨m,by simpa using hm⟩ X_train (c i)

/-- In an iteration of `fit` without empty clusters neither the new centroids nor the assignment to
them makes the sum of the squared distances larger. -/
theorem iteration_loss (h : Visited X_train (ofRat c₀) centroids)
    (hcl : classification X_train centroids = some cl) (hsurj : Function.Surjective cl) :
    ∃ before between after cl', loss X_train centroids cl = ↑(before : ℚ) ∧
      loss X_train (newCentroids X_train cl) cl = ↑(between : ℚ) ∧
      classification X_train (newCentroids X_train cl) = some cl' ∧
      loss X_train (newCentroids X_train cl) cl' = ↑(after : ℚ) ∧
      after ≤ between ∧ between ≤ before := by
  obtain ⟨c,rfl⟩ := h.exists_ofRat hcl hsurj
  obtain ⟨cl',hcl'⟩ : ∃ cl', classification X_train (newCentroids X_train cl) = some cl' := by
    rw [classification,dif_pos fun m => nearest_isSome (cl m)]
    exact ⟨_,rfl⟩
  rw [newCentroids_ofRat hsurj] at hcl' ⊢
  refine ⟨_,_,_,cl',loss_ofRat,loss_ofRat,hcl',loss_ofRat,?_,loss_average_le hsurj⟩
  apply Clustering.loss_le_of_nearest
  intro m
  exact sqDist_nearest_le (classification_eq_some.mp hcl' m) (cl m)

/-- Two points and one cluster. -/
theorem iteration_loss_two : ∃ before between after cl',
    loss (![![0],![4]] : Data 2 1) (ofRat ![![0]]) (fun _ => (0 : Fin 1)) = ↑(before : ℚ) ∧
      loss ![![0],![4]] (newCentroids ![![0],![4]] fun _ => (0 : Fin 1)) (fun _ => 0) =
        ↑(between : ℚ) ∧
      classification ![![0],![4]] (newCentroids ![![0],![4]] fun _ => (0 : Fin 1)) = some cl' ∧
      loss ![![0],![4]] (newCentroids ![![0],![4]] fun _ => (0 : Fin 1)) cl' = ↑(after : ℚ) ∧
      after ≤ between ∧ between ≤ before := by
  apply iteration_loss .init
  · decide +kernel
  · exact fun i => ⟨0,Subsingleton.elim _ _⟩

end Descent

end ResumePointers.Ml.KMeans
