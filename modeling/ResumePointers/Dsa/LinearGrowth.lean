import ResumePointers.Dsa.LinearQueue

/-! When the linear queue grows: `queue.h` allows it only if all slots hold elements, and
`linearQueue.cpp` does it whenever the tail is at the end of the array. -/
namespace ResumePointers.Dsa.LinearQueue

open CircularQueue (Op fifo wrap)

variable {T : Type} {q u : Queue T} {xs : List T} {x : T} {ops p : List (Op T)}
  {CONST_GROWTH INIT_SIZE : ℕ} {rs : List (Option (Option T))}

/-- The insertion returns, with a larger array. -/
def Grows (CONST_GROWTH : ℕ) (x : T) (q : Queue T) : Prop :=
  ∃ r u, exec CONST_GROWTH (.insert x) q = .ok r u ∧ q.N < u.N

/-- The array grows only when it holds as many elements as it has slots, so its size depends on how
many elements were held at most. -/
structure Economical (INIT_SIZE CONST_GROWTH : ℕ) (ops : List (Op T)) : Prop where
  full : ∀ p x, p ++ [Op.insert x] <+: ops → ∀ rs q,
    runOps (exec CONST_GROWTH) p (new T INIT_SIZE) = .ok rs q → Grows CONST_GROWTH x q → size q = q.N
  bounded : ∀ p, p <+: ops → ∀ rs q, runOps (exec CONST_GROWTH) p (new T INIT_SIZE) = .ok rs q →
    ∀ most, (∀ p', p' <+: p → (runPure fifo p' []).2.length ≤ most) →
      q.N ≤ max (wrap INIT_SIZE) (most + wrap CONST_GROWTH)

/-- No insertion finds the tail at the end of the array and the head moved. -/
def Packed (INIT_SIZE CONST_GROWTH : ℕ) (ops : List (Op T)) : Prop :=
  ∀ p x, p ++ [Op.insert x] <+: ops → ∀ rs q,
    runOps (exec CONST_GROWTH) p (new T INIT_SIZE) = .ok rs q → q.tail = q.N → q.head = 0

/-- Where an insertion returns, the array grows exactly if the tail is at its end. -/
theorem grows_iff (h : Rep q xs) {r : Option (Option T)}
    (hr : exec CONST_GROWTH (.insert x) q = .ok r u) : Grows CONST_GROWTH x q ↔ q.tail = q.N := by
  obtain ⟨-,-,-,-,hN⟩ := (insert_spec h x).of_ok hr
  constructor
  · rintro ⟨_,u',hr',hgt⟩
    rw [hr] at hr'
    cases hr'
    omega
  · intro hfull
    exact ⟨r,u,hr,by omega⟩

/-- With the tail at the end of the array all slots hold elements exactly if the head has not
moved. -/
theorem full_iff (h : Rep q xs) (hfull : q.tail = q.N) : size q = q.N ↔ q.head = 0 := by
  have hlen := h.length
  have horder := h.order
  rw [h.size]
  omega

theorem bounded_of_packed (h : Packed INIT_SIZE CONST_GROWTH p)
    (hq : runOps (exec CONST_GROWTH) p (new T INIT_SIZE) = .ok rs q) {most : ℕ}
    (hmost : ∀ p', p' <+: p → (runPure fifo p' []).2.length ≤ most) :
    q.N ≤ max (wrap INIT_SIZE) (most + wrap CONST_GROWTH) := by
  induction p using List.reverseRecOn generalizing rs q with
  | nil =>
    cases hq
    exact Nat.le_max_left ..
  | append_singleton p op ih =>
    obtain ⟨rs',q',r,hp,hop,-⟩ := runOps_concat_ok.mp hq
    have hdone := done_of_run hp
    have hpre : p <+: p ++ [op] := List.prefix_append ..
    have hle := ih (fun p' x hp' => h p' x (hp'.trans hpre)) hp fun p' hp' => hmost p' (hp'.trans hpre)
    cases op with
    | insert x =>
      obtain ⟨-,-,-,-,⟨-,hN⟩ | ⟨hfull,hN,hgt⟩⟩ := (insert_spec hdone.rep x).of_ok hop
      · exact hN.trans_le hle
      · have hzero := h p x (List.prefix_refl _) _ _ hp hfull
        have hlen := hdone.rep.length
        have hheld := hmost p hpre
        rw [hN,nextSize_eq hdone.rep.small hgt]
        exact (by omega : q'.N + wrap CONST_GROWTH ≤ most + wrap CONST_GROWTH).trans
          (Nat.le_max_right ..)
    | delete =>
      obtain ⟨-,-,-,hN,-⟩ := (delete_spec hdone.rep).of_ok hop
      exact hN.trans_le hle

/-- A run is economical exactly if no insertion finds the tail at the end of the array after an
element was removed. -/
theorem economical_iff (h : runOps (exec CONST_GROWTH) ops (new T INIT_SIZE) = .ok rs u) :
    Economical INIT_SIZE CONST_GROWTH ops ↔ Packed INIT_SIZE CONST_GROWTH ops := by
  constructor
  · intro heco p x hp rs' q hq hfull
    have hrep := (done_of_run hq).rep
    obtain ⟨_,v,hv⟩ := exists_run_prefix h hp
    obtain ⟨_,q',r,hq',hr,-⟩ := runOps_concat_ok.mp hv
    rw [hq] at hq'
    cases hq'
    exact (full_iff hrep hfull).mp (heco.full p x hp rs' q hq ((grows_iff hrep hr).mpr hfull))
  · intro hpacked
    refine ⟨fun p x hp rs' q hq hgrows => ?_,fun p hp rs' q hq most hmost => ?_⟩
    · have hrep := (done_of_run hq).rep
      obtain ⟨r,u',hr,-⟩ := id hgrows
      have hfull := (grows_iff hrep hr).mp hgrows
      exact (full_iff hrep hfull).mpr (hpacked p x hp rs' q hq hfull)
    · exact bounded_of_packed (fun p' x hp' => hpacked p' x (hp'.trans hp)) hq hmost

def pairRun : List (Op Char) := [.insert 'a',.insert 'b',.delete]

/-- One slot, and two more when it holds an element. -/
theorem economical_pairRun : Economical 1 2 pairRun := by
  obtain ⟨rs,u,hu,-⟩ := exists_of_returns (by decide +kernel :
    returns (runOps (exec 2) pairRun) (new Char 1) (fun _ _ => true) = true)
  refine (economical_iff hu).mpr fun p x hp rs' q hq => ?_
  have hall : ∀ p ∈ pairRun.inits, returns (runOps (exec 2) p) (new Char 1)
      (fun _ q => decide (q.tail = q.N → q.head = 0)) = true := by
    decide +kernel
  have hp' := hall p ((List.mem_inits ..).mpr ((List.prefix_append ..).trans hp))
  rw [returns,hq] at hp'
  exact of_decide_eq_true hp'

/-- However few elements are held, there are as many slots as there were insertions. -/
theorem insertions_le_N (h : runOps (exec CONST_GROWTH) p (new T INIT_SIZE) = .ok rs q) :
    p.countP isInsert ≤ q.N := by
  have hdone := done_of_run h
  exact hdone.tail ▸ hdone.rep.inside

/-- A queue of one slot, empty after an insertion and a deletion, grows at the next insertion. -/
theorem grows_when_empty : (∃ rs q, runOps (exec 1) [Op.insert 'a',.delete] (new Char 1) = .ok rs q ∧
    size q = 0 ∧ q.N = 1 ∧ Grows 1 'b' q) ∧ ¬ Economical 1 1 [Op.insert 'a',.delete,.insert 'b'] := by
  obtain ⟨rs,q,hq,hfacts⟩ := exists_of_returns (by decide +kernel :
    returns (runOps (exec 1) [Op.insert 'a',.delete]) (new Char 1) (fun _ q =>
      decide (size q = 0 ∧ q.N = 1 ∧
        returns (exec 1 (.insert 'b')) q (fun _ u => decide (q.N < u.N)) = true)) = true)
  obtain ⟨hsize,hN,hnext⟩ := of_decide_eq_true hfacts
  obtain ⟨r,u,hu,hlt⟩ := exists_of_returns hnext
  have hgrows : Grows 1 'b' q := ⟨r,u,hu,of_decide_eq_true hlt⟩
  refine ⟨⟨rs,q,hq,hsize,hN,hgrows⟩,fun h => ?_⟩
  have hfull := h.full [.insert 'a',.delete] 'b' (List.prefix_refl _) rs q hq hgrows
  omega

end ResumePointers.Dsa.LinearQueue
