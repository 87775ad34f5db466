import ResumePointers.Lib.Runs
import ResumePointers.Lib.Window
import Mathlib.Algebra.Group.Nat.Defs
import Mathlib.Data.List.Induction
import Mathlib.Data.List.Infix

/-! The circular queue (`dsa/queues/circularQueue.cpp`). Numbers are `unsigned int`, and slots that
nobody has written are `none`. -/
namespace ResumePointers.Dsa.CircularQueue

variable {T : Type}

inductive Fault
  | range
  | fuel
deriving DecidableEq

/-- `DynamicQueue`; `A` is as long as it was made. -/
structure Queue (T : Type) where
  A : List (Option T)
  N : ℕ
  head : ℕ
  tail : ℕ

/-- The -1 in `tail`. -/
def dummy : ℕ := 2 ^ 32 - 1

def wrap (n : ℕ) : ℕ := n % 2 ^ 32

abbrev M (T : Type) := EStateM Fault (Queue T)

/-- `DynamicQueue()`. -/
def new (T : Type) (INIT_SIZE : ℕ) : Queue T := ⟨List.replicate INIT_SIZE none,INIT_SIZE,0,0⟩

def size (q : Queue T) : ℕ :=
  if q.tail = dummy then q.N else wrap (q.tail + 2 ^ 32 - q.head + q.N) % q.N

def isEmpty (q : Queue T) : Bool := size q = 0

def isFull (q : Queue T) : Bool := size q = q.N

/-- The loop of `grow`, over the old array into `p`; returns `p` and `i`. -/
def growLoop (A : List (Option T)) (old head : ℕ) :
    ℕ → List (Option T) → ℕ → ℕ → ℕ → Except Fault (List (Option T) × ℕ)
  | 0,_,_,_,_ => .error .fuel
  | fuel + 1,p,i,j,tail =>
    if (j + 1) % old ≠ tail then
      let tail := if tail = dummy then head else tail
      if h : j < A.length ∧ i < p.length then
        growLoop A old head fuel (p.set i A[j]) (i + 1) ((j + 1) % old) tail
      else .error .range
    else .ok (p,i)

/-- `grow()`, when the queue is full. -/
def grow (CONST_GROWTH : ℕ) : M T Unit := do
  let q ← get
  let N := wrap (q.N + CONST_GROWTH)
  match growLoop q.A q.N q.head (q.N + 1) (List.replicate N none) 0 q.head q.tail with
  | .error e => throw e
  | .ok (p,i) => set { q with A := p, N := N, head := 0, tail := i + 1 }

def QInsert (CONST_GROWTH : ℕ) (x : T) : M T Unit := do
  if isFull (← get) then grow CONST_GROWTH
  let q ← get
  if q.tail < q.A.length then
    let tail := wrap (q.tail + 1) % q.N
    set { q with A := q.A.set q.tail (some x), tail := if tail = q.head then dummy else tail }
  else throw .range

/-- `none` is the return of `false`; else the value that is stored to `*x`. -/
def QDelete : M T (Option (Option T)) := do
  let q ← get
  if isEmpty q then pure none
  else if h : q.head < q.A.length then
    set { q with
      head := wrap (q.head + 1) % q.N
      tail := if q.tail = dummy then q.head else q.tail }
    pure (some q.A[q.head])
  else throw .range

inductive Op (T : Type)
  | insert (x : T)
  | delete

def exec (CONST_GROWTH : ℕ) : Op T → M T (Option (Option T))
  | .insert x => do
    QInsert CONST_GROWTH x
    pure none
  | .delete => QDelete

/-- The queue as it should be: the elements held, the oldest first. -/
def fifo : Op T → List T → Option (Option T) × List T
  | .insert x,xs => (none,xs ++ [x])
  | .delete,xs => (xs.head?.map some,xs.tail)

/-- The slots from `head` on, as many as `size()` says. -/
def held (q : Queue T) : List (Option T) :=
  (List.range (size q)).map fun k => (q.A[(q.head + k) % q.N]?).join

variable {q : Queue T} {xs : List T} {x : T} {ops : List (Op T)} {k n CONST_GROWTH INIT_SIZE : ℕ}

theorem length_held (q : Queue T) : (held q).length = size q := by simp [held]

theorem held_get (hk : k < size q) :
    (held q)[k]? = some (q.A[(q.head + k) % q.N]?).join := by
  simp [held,hk]

/-- The queue holds `xs` in an array of `n` slots. -/
structure Rep (n : ℕ) (q : Queue T) (xs : List T) : Prop where
  length : q.A.length = n
  N : q.N = n
  window : Window q.A q.head (xs.map some)
  tail : q.tail = if xs.length = n then dummy else (q.head + xs.length) % n
  bound : n ≤ 2 ^ 31

theorem Rep.head_lt (h : Rep n q xs) : q.head < n := h.length ▸ h.window.head_lt

theorem Rep.length_le (h : Rep n q xs) : xs.length ≤ n := by
  have := h.window.length_le
  rw [List.length_map,h.length] at this
  exact this

theorem Rep.size (h : Rep n q xs) : size q = xs.length := by
  have hhead := h.head_lt
  have hlen := h.length_le
  have hbound := h.bound
  rw [CircularQueue.size,h.tail,h.N]
  by_cases hfull : xs.length = n
  · rw [if_pos hfull,if_pos rfl,hfull]
  · rw [if_neg hfull,around_eq hhead hlen]
    by_cases hlt : q.head + xs.length < n
    · rw [if_pos hlt,if_neg (by rw [dummy]; omega),wrap]
      have hsum : q.head + xs.length + 2 ^ 32 - q.head + n = xs.length + n + 2 ^ 32 := by omega
      have hwrap : (xs.length + n) % 2 ^ 32 = xs.length + n := Nat.mod_eq_of_lt (by omega)
      rw [hsum,Nat.add_mod_right,hwrap,Nat.add_mod_right,Nat.mod_eq_of_lt (by omega)]
    · rw [if_neg hlt,if_neg (by rw [dummy]; omega),wrap]
      have hsum : q.head + xs.length - n + 2 ^ 32 - q.head + n = xs.length + 2 ^ 32 := by omega
      rw [hsum,Nat.add_mod_right,Nat.mod_eq_of_lt (by omega),Nat.mod_eq_of_lt (by omega)]

theorem Rep.held (h : Rep n q xs) : held q = xs.map some := by
  refine List.ext_getElem (by simp [CircularQueue.held,h.size]) fun k hk hk' => ?_
  rw [List.length_map] at hk'
  have hentry := h.window.entry k (by rw [List.length_map]; exact hk')
  rw [h.length] at hentry
  simp only [CircularQueue.held,List.getElem_map,List.getElem_range,h.N,hentry,Option.join_some]

theorem insert_rep (h : Rep n q xs) (hlt : xs.length < n) (x : T) :
    Total (exec CONST_GROWTH (.insert x)) q fun r u => r = none ∧ Rep n u (xs ++ [x]) := by
  have hhead := h.head_lt
  have hbound := h.bound
  have hfull : isFull q = false := by
    rw [isFull,h.size,h.N]
    exact decide_eq_false (Nat.ne_of_lt hlt)
  have htail : q.tail = (q.head + xs.length) % n := by rw [h.tail,if_neg (Nat.ne_of_lt hlt)]
  have htail_lt : q.tail < n := htail ▸ Nat.mod_lt _ (by omega)
  have hpush := h.window.push (by rw [List.length_map,h.length]; exact hlt) (some x)
  rw [List.length_map,h.length,← htail] at hpush
  refine (post_bind ..).mpr ?_
  rw [QInsert]
  refine (post_bind ..).mpr ((post_get ..).mpr ?_)
  rw [hfull]
  refine (post_bind ..).mpr ((post_get ..).mpr ?_)
  rw [h.length,if_pos htail_lt]
  refine ⟨rfl,(List.length_set ..).trans h.length,h.N,?_,?_,hbound⟩
  · rw [List.map_append]
    exact hpush
  · have hnext : wrap (q.tail + 1) % n = (q.head + (xs.length + 1)) % n := by
      have hwrap : wrap (q.tail + 1) = q.tail + 1 := Nat.mod_eq_of_lt (by omega)
      rw [hwrap,htail,Nat.mod_add_mod,Nat.add_assoc]
    dsimp only
    rw [h.N,hnext,List.length_append,List.length_singleton]
    have hiff : (q.head + (xs.length + 1)) % n = q.head ↔ xs.length + 1 = n := by
      rw [around_eq hhead (by omega)]
      split_ifs <;> omega
    by_cases hlast : xs.length + 1 = n
    · rw [if_pos hlast,if_pos (hiff.mpr hlast)]
    · rw [if_neg hlast,if_neg (fun he => hlast (hiff.mp he))]

theorem delete_rep (h : Rep n q xs) : Total (exec CONST_GROWTH .delete) q fun r u =>
    r = (fifo .delete xs).1 ∧ Rep n u (fifo .delete xs).2 := by
  have hhead := h.head_lt
  have hbound := h.bound
  refine (post_bind ..).mpr ((post_get ..).mpr ?_)
  rw [isEmpty,h.size]
  cases xs with
  | nil => exact ⟨rfl,h⟩
  | cons x xs =>
    have hlen := h.length_le
    rw [List.length_cons] at hlen
    have hentry := h.window.head_eq
    have hpop := h.window.pop
    rw [h.length] at hpop
    obtain ⟨hlt,hval⟩ := List.getElem?_eq_some_iff.mp hentry
    have hnext : wrap (q.head + 1) % q.N = (q.head + 1) % n := by
      have hwrap : wrap (q.head + 1) = q.head + 1 := Nat.mod_eq_of_lt (by omega)
      rw [hwrap,h.N]
    rw [List.length_cons,if_neg (by simp),dif_pos hlt,hnext,hval]
    have htail := h.tail
    rw [List.length_cons] at htail
    have htail' : (if q.tail = dummy then q.head else q.tail) =
        if xs.length = n then dummy else ((q.head + 1) % n + xs.length) % n := by
      rw [if_neg (by omega : xs.length ≠ n),around_succ]
      by_cases hfull : xs.length + 1 = n
      · rw [htail,if_pos hfull,if_pos rfl,hfull,Nat.add_mod_right,Nat.mod_eq_of_lt hhead]
      · have hlt := Nat.mod_lt (q.head + (xs.length + 1)) (by omega : 0 < n)
        rw [htail,if_neg hfull,if_neg (by rw [dummy]; omega)]
    exact ⟨rfl,h.length,h.N,hpop,htail',hbound⟩

/-- The loop of `grow` does not run out of fuel, and if it does not leave an array either, it stops
in front of the last slot: there `p` is as it was. -/
theorem growLoop_spec {A p : List (Option T)} {old head fuel i : ℕ} (hhead : head < old) (hi : 1 ≤ i)
    (hle : i ≤ max 1 (old - 1)) (hfuel : old < fuel + i) :
    (∀ e, growLoop A old head fuel p i ((head + i) % old) head = .error e → e = .range) ∧
      ∀ p' i', growLoop A old head fuel p i ((head + i) % old) head = .ok (p',i') →
        i' = max 1 (old - 1) ∧ p'.length = p.length ∧ ∀ k, i' ≤ k → p'[k]? = p[k]? := by
  induction fuel generalizing p i with
  | zero => omega
  | succ fuel ih =>
    have hstep : ((head + i) % old + 1) % old = (head + (i + 1)) % old := by
      rw [Nat.mod_add_mod,Nat.add_assoc]
    rw [growLoop,hstep,ite_self]
    by_cases hlast : i = max 1 (old - 1)
    · have hend : (head + (i + 1)) % old = head := by
        by_cases hone : old = 1
        · rw [hone,Nat.mod_one]
          omega
        · rw [hlast,show head + (max 1 (old - 1) + 1) = head + old by omega,Nat.add_mod_right,
            Nat.mod_eq_of_lt hhead]
      rw [if_neg (not_not.mpr hend)]
      refine ⟨nofun,fun p' i' he => ?_⟩
      obtain ⟨rfl,rfl⟩ := Prod.mk.inj (Except.ok.inj he)
      exact ⟨hlast,rfl,fun _ _ => rfl⟩
    · have hgo : (head + (i + 1)) % old ≠ head := by
        rw [around_eq hhead (by omega)]
        split_ifs <;> omega
      rw [if_pos hgo]
      by_cases hrange : (head + i) % old < A.length ∧ i < p.length
      · rw [dif_pos hrange]
        obtain ⟨herror,hok⟩ := @ih (p.set i A[(head + i) % old]) (i + 1) (by omega) (by omega)
          (by omega)
        refine ⟨herror,fun p' i' he => ?_⟩
        obtain ⟨hi',hlen,hrest⟩ := hok p' i' he
        refine ⟨hi',hlen.trans (List.length_set ..),fun k hk => ?_⟩
        rw [hrest k hk,List.getElem?_set_ne (by omega)]
      · rw [dif_neg hrange]
        exact ⟨fun e he => (Except.error.inj he).symm,nofun⟩

/-- `grow` ends. Behind the slots it has copied the array is not written, and the tail points behind
one slot more. -/
theorem grow_spec (h : Rep n q xs) (hfull : xs.length = n) :
    Post (grow CONST_GROWTH) q (fun _ u => u.head = 0 ∧ u.tail = max 1 (n - 1) + 1 ∧
      u.A.length = u.N ∧ ∀ k, max 1 (n - 1) ≤ k → k < u.N → u.A[k]? = some none)
      fun e _ => e = .range := by
  have hhead := h.head_lt
  have hbound := h.bound
  have htail : q.tail = dummy := by rw [h.tail,if_pos hfull]
  have hlt := Nat.mod_lt (q.head + 1) (Nat.zero_lt_of_lt hhead)
  have hgo : (q.head + 1) % n ≠ dummy := by
    rw [dummy]
    omega
  have hfirst (p : List (Option T)) : growLoop q.A n q.head (n + 1) p 0 q.head dummy =
      if h : q.head < q.A.length ∧ 0 < p.length then
        growLoop q.A n q.head n (p.set 0 q.A[q.head]) 1 ((q.head + 1) % n) q.head
      else .error .range := by
    rw [growLoop,if_pos hgo,if_pos rfl]
  rw [grow]
  refine (post_bind ..).mpr ((post_get ..).mpr ?_)
  dsimp only
  rw [h.N,htail,hfirst]
  generalize hp : List.replicate (wrap (n + CONST_GROWTH)) (none : Option T) = p
  have hlen : p.length = wrap (n + CONST_GROWTH) := by rw [← hp,List.length_replicate]
  by_cases hrange : q.head < q.A.length ∧ 0 < p.length
  · rw [dif_pos hrange]
    obtain ⟨herror,hok⟩ := @growLoop_spec T q.A (p.set 0 q.A[q.head]) n q.head n 1 hhead (Nat.le_refl 1)
      (by omega) (by omega)
    cases hr : growLoop q.A n q.head n (p.set 0 q.A[q.head]) 1 ((q.head + 1) % n) q.head with
    | error e => exact herror e hr
    | ok r =>
      obtain ⟨hi,hlen',hrest⟩ := hok r.1 r.2 hr
      refine ⟨rfl,congrArg (· + 1) hi,?_,fun k hk hkN => ?_⟩
      · exact hlen'.trans ((List.length_set ..).trans hlen)
      · refine (hrest k (hi ▸ hk)).trans ?_
        rw [List.getElem?_set_ne (by omega),← hp,List.getElem?_replicate,if_pos hkN]
  · rw [dif_neg hrange]
    rfl

/-- Growth loses the last element: behind those before it is a slot that nobody has written. -/
theorem insert_full (h : Rep n q xs) (hfull : xs.length = n) (x : T) :
    Post (exec CONST_GROWTH (.insert x)) q (fun _ u => held u ≠ (xs ++ [x]).map some)
      fun e _ => e = .range := by
  have hisFull : isFull q = true := by
    rw [isFull,h.size,h.N]
    exact decide_eq_true hfull
  have hn := h.head_lt
  refine (post_bind ..).mpr ?_
  rw [QInsert]
  refine (post_bind ..).mpr ((post_get ..).mpr ?_)
  rw [hisFull]
  refine (post_bind ..).mpr ((grow_spec h hfull).imp fun _ u hu => ?_)
  obtain ⟨hhead,htail,hlen,hnone⟩ := hu
  refine (post_bind ..).mpr ((post_get ..).mpr ?_)
  by_cases hrange : u.tail < u.A.length
  · rw [if_pos hrange]
    intro he
    have hsize := congrArg List.length he
    rw [length_held,List.length_map,List.length_append,List.length_singleton,hfull] at hsize
    have hslot := held_get (q := ⟨u.A.set u.tail (some x),u.N,u.head,
      if wrap (u.tail + 1) % u.N = u.head then dummy else wrap (u.tail + 1) % u.N⟩)
      (k := max 1 (n - 1)) (by rw [hsize]; omega)
    have hindex : (u.head + max 1 (n - 1)) % u.N = max 1 (n - 1) := by
      rw [hhead,Nat.zero_add,Nat.mod_eq_of_lt (by omega)]
    rw [he] at hslot
    dsimp only at hslot
    rw [hindex,List.getElem?_set_ne (by omega),hnone _ (Nat.le_refl _) (by omega),List.getElem?_map] at hslot
    cases hx : (xs ++ [x])[max 1 (n - 1)]? with
    | none => rw [hx] at hslot; cases hslot
    | some y => rw [hx] at hslot; cases hslot
  · rw [if_neg hrange]
    rfl

theorem new_rep (hpos : 0 < INIT_SIZE) (hmax : INIT_SIZE ≤ 2 ^ 31) :
    Rep INIT_SIZE (new T INIT_SIZE) [] where
  length := List.length_replicate
  N := rfl
  window := Window.nil (by rw [new,List.length_replicate]; exact hpos)
  tail := by
    rw [List.length_nil,if_neg (Nat.ne_of_lt hpos)]
    exact (Nat.zero_mod _).symm
  bound := hmax

/-- An operation after which the elements fit into the array. -/
theorem exec_rep (h : Rep n q xs) {op : Op T} (hfit : (fifo op xs).2.length ≤ n) :
    Total (exec CONST_GROWTH op) q fun r u => r = (fifo op xs).1 ∧ Rep n u (fifo op xs).2 := by
  cases op with
  | insert x =>
    rw [fifo,List.length_append,List.length_singleton] at hfit
    exact insert_rep h hfit x
  | delete => exact delete_rep h

/-- At every time in a run the answers have been those of the ideal queue, and its elements are in
the array. -/
def Ideal (INIT_SIZE CONST_GROWTH : ℕ) (ops : List (Op T)) : Prop :=
  ∀ p, p <+: ops → ∃ q,
    runOps (exec CONST_GROWTH) p (new T INIT_SIZE) = .ok (runPure fifo p []).1 q ∧
      size q = (runPure fifo p []).2.length ∧ held q = (runPure fifo p []).2.map some

/-- The array of a run that is ideal, or whose elements fit into it. -/
theorem run_rep (hpos : 0 < INIT_SIZE) (hmax : INIT_SIZE ≤ 2 ^ 31)
    (h : Ideal INIT_SIZE CONST_GROWTH ops ∨
      ∀ p, p <+: ops → (runPure fifo p []).2.length ≤ INIT_SIZE) {p : List (Op T)} (hp : p <+: ops) :
    ∃ q, runOps (exec CONST_GROWTH) p (new T INIT_SIZE) = .ok (runPure fifo p []).1 q ∧
      Rep INIT_SIZE q (runPure fifo p []).2 := by
  induction p using List.reverseRecOn with
  | nil => exact ⟨_,rfl,new_rep hpos hmax⟩
  | append_singleton p op ih =>
    obtain ⟨q,hq,hrep⟩ := ih ((List.prefix_append ..).trans hp)
    by_cases hfit : (fifo op (runPure fifo p []).2).2.length ≤ INIT_SIZE
    · obtain ⟨r,u,hu,rfl,hrep'⟩ := (exec_rep hrep hfit).exists_ok
      rw [runPure_concat]
      exact ⟨u,runOps_concat_ok.mpr ⟨_,q,_,hq,hu,rfl⟩,hrep'⟩
    · exfalso
      rcases h with hideal | hfits
      · obtain ⟨u,hu,-,hheld⟩ := hideal _ hp
        obtain ⟨_,q',r,hq',hr,-⟩ := runOps_concat_ok.mp hu
        rw [hq] at hq'
        cases hq'
        rw [runPure_concat] at hheld
        cases op with
        | insert x =>
          rw [fifo,List.length_append,List.length_singleton] at hfit
          have hlen := hrep.length_le
          exact (insert_full hrep (by omega) x).of_ok hr hheld
        | delete =>
          rw [fifo,List.length_tail] at hfit
          have hlen := hrep.length_le
          omega
      · have := hfits _ hp
        rw [runPure_concat] at this
        exact hfit this

/-- A run is ideal exactly if the queue never has to grow. -/
theorem ideal_iff (hpos : 0 < INIT_SIZE) (hmax : INIT_SIZE ≤ 2 ^ 31) (ops : List (Op T)) :
    Ideal INIT_SIZE CONST_GROWTH ops ↔
      ∀ p, p <+: ops → (runPure fifo p []).2.length ≤ INIT_SIZE := by
  constructor
  · intro h p hp
    obtain ⟨q,-,hrep⟩ := run_rep hpos hmax (.inl h) hp
    exact hrep.length_le
  · intro h p hp
    obtain ⟨q,hq,hrep⟩ := @run_rep T ops CONST_GROWTH INIT_SIZE hpos hmax (.inr h) p hp
    exact ⟨q,hq,hrep.size,hrep.held⟩

def wrapRun : List (Op Char) :=
  [.insert 'a',.insert 'b',.delete,.insert 'c',.delete,.delete,.delete]

/-- Two slots, and three elements that go through them. -/
theorem ideal_wrapRun : Ideal 2 1 wrapRun :=
  (ideal_iff (by decide) (by decide) wrapRun).mpr fun p hp =>
    (by decide : ∀ p ∈ wrapRun.inits, (runPure fifo p []).2.length ≤ 2) p ((List.mem_inits ..).mpr hp)

def growRun : List (Op Char) := [.insert 'a',.insert 'b',.insert 'c',.delete,.delete]

/-- The second of three elements is lost when two slots become four: its slot was never written. -/
theorem growth_loses : ¬ Ideal 2 2 growRun := by
  intro h
  obtain ⟨q,hq,-⟩ := h _ (List.prefix_refl _)
  obtain ⟨rs,q',hrs,hlast⟩ := exists_of_returns (by decide :
    returns (runOps (exec 2) growRun) (new Char 2) (fun rs _ => decide
      (rs = [none,none,none,some (some 'a'),some none])) = true)
  rw [hq] at hrs
  cases hrs
  revert hlast
  decide

end ResumePointers.Dsa.CircularQueue
