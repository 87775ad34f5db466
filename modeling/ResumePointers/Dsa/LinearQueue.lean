import ResumePointers.Dsa.CircularQueue

/-! The linear queue (`dsa/queues/linearQueue.cpp`): its elements are the slots from `head` to
`tail`, and it grows when `tail` is at the end. -/
namespace ResumePointers.Dsa.LinearQueue

open CircularQueue (Op fifo wrap)

variable {T : Type}

inductive Fault
  | range
  | overflow
deriving DecidableEq

/-- `DynamicQueue`; `A` is as long as it was made. -/
structure Queue (T : Type) where
  A : List (Option T)
  N : ℕ
  head : ℕ
  tail : ℕ

abbrev M (T : Type) := EStateM Fault (Queue T)

/-- `DynamicQueue()`, with an array of slots that nobody has written. -/
def new (T : Type) (INIT_SIZE : ℕ) : Queue T :=
  ⟨List.replicate INIT_SIZE none,wrap INIT_SIZE,0,0⟩

def size (q : Queue T) : ℕ := wrap (q.tail + 2 ^ 32 - q.head)

def isEmpty (q : Queue T) : Bool := size q = 0

def isFull (q : Queue T) : Bool := q.tail = q.N

def nextSize (CONST_GROWTH : ℕ) (q : Queue T) : ℕ := wrap (q.N + CONST_GROWTH)

/-- The rest of the loop of `grow`: from `i` on, so many rounds. The counter is an `int`. -/
def growLoop (A : List (Option T)) : ℕ → ℕ → List (Option T) → Except Fault (List (Option T))
  | 0,_,new_queue => .ok new_queue
  | rounds + 1,i,new_queue =>
    if h : i < new_queue.length ∧ i < A.length then
      if i + 1 < 2 ^ 31 then growLoop A rounds (i + 1) (new_queue.set i A[i])
      else .error .overflow
    else .error .range

def grow (CONST_GROWTH : ℕ) : M T Unit := do
  let q ← get
  if isFull q then
    let N := nextSize CONST_GROWTH q
    match growLoop q.A q.N 0 (List.replicate N none) with
    | .error e => throw e
    | .ok new_queue => set { q with A := new_queue, N := N }

/-- The index is below `N` and in the array. -/
def Inside (q : Queue T) (i : ℕ) : Prop := i < q.N ∧ i < q.A.length

instance (q : Queue T) (i : ℕ) : Decidable (Inside q i) := inferInstanceAs (Decidable (_ ∧ _))

def QInsert (CONST_GROWTH : ℕ) (x : T) : M T Unit := do
  if isFull (← get) then grow CONST_GROWTH
  let q ← get
  if Inside q q.tail then set { q with A := q.A.set q.tail (some x), tail := wrap (q.tail + 1) }
  else throw .range

/-- `none` is the return of `false`; else the value that is stored to `*x`. -/
def QDelete : M T (Option (Option T)) := do
  let q ← get
  if isEmpty q then pure none
  else if h : Inside q q.head then
    set { q with head := wrap (q.head + 1) }
    pure (some (q.A.get ⟨q.head,h.2⟩))
  else throw .range

def exec (CONST_GROWTH : ℕ) : Op T → M T (Option (Option T))
  | .insert x => do
    QInsert CONST_GROWTH x
    pure none
  | .delete => QDelete

/-- The queue holds `xs`. -/
structure Rep (q : Queue T) (xs : List T) : Prop where
  slots : q.N ≤ q.A.length
  small : q.N < 2 ^ 32
  order : q.head ≤ q.tail
  inside : q.tail ≤ q.N
  elems : (q.A.take q.tail).drop q.head = xs.map some

variable {q : Queue T} {xs : List T} {x : T} {ops : List (Op T)} {CONST_GROWTH INIT_SIZE : ℕ}

theorem Rep.length (h : Rep q xs) : xs.length = q.tail - q.head := by
  have hlen := congrArg List.length h.elems
  have h1 := h.slots
  have h2 := h.inside
  rw [List.length_map,List.length_drop,List.length_take] at hlen
  omega

theorem Rep.size (h : Rep q xs) : size q = xs.length := by
  have h1 := h.small
  have h2 := h.order
  have h3 := h.inside
  rw [LinearQueue.size,h.length,wrap,show q.tail + 2 ^ 32 - q.head = q.tail - q.head + 2 ^ 32 by omega,
    Nat.add_mod_right,Nat.mod_eq_of_lt (by omega)]

theorem new_rep (T : Type) (INIT_SIZE : ℕ) : Rep (new T INIT_SIZE) [] where
  slots := (Nat.mod_le _ _).trans_eq List.length_replicate.symm
  small := Nat.mod_lt _ (by decide)
  order := Nat.le_refl 0
  inside := Nat.zero_le _
  elems := rfl

/-- What the loop of `grow` copies. It completes if both arrays are long enough for it and the
counter does not overflow, and only then. -/
theorem growLoop_ok {A : List (Option T)} {rounds i : ℕ} {p p' : List (Option T)}
    (hp : p.take i = A.take i) (h : growLoop A rounds i p = .ok p') :
    p'.length = p.length ∧ p'.take (i + rounds) = A.take (i + rounds) ∧
      (0 < rounds → i + rounds ≤ p.length ∧ i + rounds < 2 ^ 31) := by
  induction rounds generalizing i p with
  | zero =>
    obtain rfl := Except.ok.inj h
    exact ⟨rfl,hp,nofun⟩
  | succ rounds ih =>
    rw [growLoop] at h
    split at h
    · next hin =>
      split at h
      · next hint =>
        have hnext : (p.set i A[i]).take (i + 1) = A.take (i + 1) := by
          rw [List.take_succ_eq_append_getElem (by simpa using hin.1),List.take_set_of_le (Nat.le_refl i),
            List.getElem_set_self,hp,List.take_succ_eq_append_getElem hin.2]
        obtain ⟨hlen,htake,hmore⟩ := ih hnext h
        rw [List.length_set] at hlen hmore
        refine ⟨hlen,?_,fun _ => ?_⟩
        · rw [← Nat.add_assoc,Nat.add_right_comm]
          exact htake
        · by_cases hzero : rounds = 0
          · subst hzero
            exact ⟨hin.1,hint⟩
          · have := hmore (Nat.pos_of_ne_zero hzero)
            omega
      · cases h
    · cases h

theorem growLoop_error {A : List (Option T)} {rounds i : ℕ} {p : List (Option T)} {e : Fault}
    (hA : i + rounds ≤ A.length) (h : growLoop A rounds i p = .error e) :
    p.length < i + rounds ∨ 2 ^ 31 ≤ i + rounds := by
  induction rounds generalizing i p with
  | zero => cases h
  | succ rounds ih =>
    rw [growLoop] at h
    split at h
    · split at h
      · have := ih (by omega) h
        rw [List.length_set] at this
        omega
      · omega
    · next hout =>
      have : ¬ i < p.length := fun hi => hout ⟨hi,by omega⟩
      omega

/-- A store at the tail adds an element. -/
theorem Rep.push (h : Rep q xs) (hlt : q.tail < q.N) (x : T) :
    Rep { q with A := q.A.set q.tail (some x), tail := wrap (q.tail + 1) } (xs ++ [x]) := by
  have hslots := h.slots
  have hsmall := h.small
  have horder := h.order
  have hwrap : wrap (q.tail + 1) = q.tail + 1 := Nat.mod_eq_of_lt (by omega)
  rw [hwrap]
  refine ⟨by simpa using hslots,hsmall,Nat.le_succ_of_le horder,hlt,?_⟩
  have htake : (q.A.set q.tail (some x)).take (q.tail + 1) = q.A.take q.tail ++ [some x] := by
    rw [List.take_succ_eq_append_getElem (by rw [List.length_set]; omega),
      List.take_set_of_le (Nat.le_refl _),List.getElem_set_self]
  dsimp only
  rw [htake,List.drop_append_of_le_length (by rw [List.length_take]; omega),h.elems,List.map_append]
  rfl

/-- A full queue keeps its elements when it grows. That fails only if the counter overflows or the
new size is less than the old one. -/
theorem grow_spec (h : Rep q xs) (hfull : q.tail = q.N) :
    Post (grow CONST_GROWTH) q (fun _ u => Rep u xs ∧ u.head = q.head ∧ u.tail = q.tail ∧
      u.N = nextSize CONST_GROWTH q) fun _ _ => 2 ^ 31 ≤ q.N ∨ nextSize CONST_GROWTH q < q.N := by
  have hyes : isFull q = true := decide_eq_true hfull
  rw [grow]
  refine (post_bind ..).mpr ((post_get ..).mpr ?_)
  rw [if_pos hyes]
  dsimp only
  cases hloop : growLoop q.A q.N 0 (List.replicate (nextSize CONST_GROWTH q) none) with
  | error e =>
    have := growLoop_error (by rw [Nat.zero_add]; exact h.slots) hloop
    rw [List.length_replicate,Nat.zero_add] at this
    exact this.symm
  | ok p =>
    have hstart : (List.replicate (nextSize CONST_GROWTH q) (none : Option T)).take 0 = q.A.take 0 := rfl
    obtain ⟨hlen,htake,hmore⟩ := growLoop_ok hstart hloop
    rw [List.length_replicate] at hlen hmore
    rw [Nat.zero_add] at htake hmore
    have hle : q.N ≤ nextSize CONST_GROWTH q := by
      by_cases hzero : q.N = 0
      · omega
      · exact (hmore (Nat.pos_of_ne_zero hzero)).1
    refine ⟨⟨hlen.ge,Nat.mod_lt _ (by decide),h.order,hfull.trans_le hle,?_⟩,rfl,rfl,rfl⟩
    rw [← h.elems]
    dsimp only
    rw [hfull,htake]

/-- An insertion does not change the capacity, or the tail was at the end of the array. It fails
only if the growth does not make room. -/
theorem insert_spec (h : Rep q xs) (x : T) : Post (exec CONST_GROWTH (.insert x)) q
    (fun r u => r = none ∧ Rep u (xs ++ [x]) ∧ u.head = q.head ∧ u.tail = q.tail + 1 ∧
      (q.tail < q.N ∧ u.N = q.N ∨
        q.tail = q.N ∧ u.N = nextSize CONST_GROWTH q ∧ q.N < nextSize CONST_GROWTH q))
    fun _ _ => q.tail = q.N ∧ (2 ^ 31 ≤ q.N ∨ nextSize CONST_GROWTH q ≤ q.N) := by
  have hstore {u : Queue T} (hu : Rep u xs) (hlt : u.tail < u.N) : wrap (u.tail + 1) = u.tail + 1 := by
    have := hu.small
    exact Nat.mod_eq_of_lt (by omega)
  refine (post_bind ..).mpr ?_
  rw [QInsert]
  refine (post_bind ..).mpr ((post_get ..).mpr ?_)
  by_cases hfull : q.tail = q.N
  · have hyes : isFull q = true := decide_eq_true hfull
    rw [if_pos hyes]
    refine (post_bind ..).mpr ((grow_spec h hfull).mono ?_ fun _ _ hno => ⟨hfull,hno.imp id Nat.le_of_lt⟩)
    rintro - u ⟨hu,hhead,htail,hN⟩
    refine (post_bind ..).mpr ((post_get ..).mpr ?_)
    by_cases hlt : u.tail < u.N
    · have hin : Inside u u.tail := ⟨hlt,hlt.trans_le hu.slots⟩
      rw [if_pos hin]
      refine ⟨rfl,hu.push hlt x,hhead,(hstore hu hlt).trans (by rw [htail]),.inr ⟨hfull,hN,?_⟩⟩
      omega
    · rw [if_neg fun hin : Inside u u.tail => hlt hin.1]
      exact ⟨hfull,.inr (by omega)⟩
  · have hno : ¬ isFull q = true := fun hyes => hfull (of_decide_eq_true hyes)
    have hlt : q.tail < q.N := Nat.lt_of_le_of_ne h.inside hfull
    have hin : Inside q q.tail := ⟨hlt,hlt.trans_le h.slots⟩
    rw [if_neg hno]
    refine (post_bind ..).mpr ((post_get ..).mpr ?_)
    rw [if_pos hin]
    exact ⟨rfl,h.push hlt x,rfl,hstore h hlt,.inl ⟨hlt,rfl⟩⟩

theorem delete_spec (h : Rep q xs) : Total (exec CONST_GROWTH .delete) q fun r u =>
    r = (fifo .delete xs).1 ∧ Rep u (fifo .delete xs).2 ∧ u.tail = q.tail ∧ u.N = q.N ∧
      u.head = if xs = [] then q.head else q.head + 1 := by
  have hslots := h.slots
  have hsmall := h.small
  have hinside := h.inside
  have hlen := h.length
  refine (post_bind ..).mpr ((post_get ..).mpr ?_)
  rw [isEmpty,h.size]
  cases xs with
  | nil => exact ⟨rfl,h,rfl,rfl,rfl⟩
  | cons x xs =>
    rw [List.length_cons] at hlen ⊢
    have hin : Inside q q.head := ⟨by omega,by omega⟩
    have helems := h.elems
    rw [List.drop_eq_getElem_cons (by rw [List.length_take]; omega),List.getElem_take,List.map_cons,
      List.cons.injEq] at helems
    rw [if_neg (by simp),dif_pos hin]
    have hwrap : wrap (q.head + 1) = q.head + 1 := Nat.mod_eq_of_lt (by omega)
    refine ⟨congrArg some helems.1,⟨hslots,hsmall,?_,hinside,?_⟩,rfl,rfl,hwrap⟩
    · exact hwrap.trans_le (by dsimp only; omega)
    · dsimp only
      rw [hwrap]
      exact helems.2

def isInsert : Op T → Bool
  | .insert _ => true
  | .delete => false

/-- At every time in a run the answers have been those of the ideal queue, and `size()` is its
length. An access at or behind `N` would end the run. -/
def Ideal (INIT_SIZE CONST_GROWTH : ℕ) (ops : List (Op T)) : Prop :=
  ∀ p, p <+: ops → ∃ q,
    runOps (exec CONST_GROWTH) p (new T INIT_SIZE) = .ok (runPure fifo p []).1 q ∧
      size q = (runPure fifo p []).2.length

/-- The first growth, if a run of less than `2 ^ 31` insertions needs one, makes the array longer. -/
def Roomy (INIT_SIZE CONST_GROWTH : ℕ) : Prop :=
  wrap INIT_SIZE + 1 < 2 ^ 31 → 0 < wrap CONST_GROWTH ∧ wrap INIT_SIZE + wrap CONST_GROWTH < 2 ^ 32

/-- What a completed run has answered and made of the queue. -/
structure Done (INIT_SIZE CONST_GROWTH : ℕ) (p : List (Op T)) (rs : List (Option (Option T)))
    (q : Queue T) : Prop where
  answers : rs = (runPure fifo p []).1
  rep : Rep q (runPure fifo p []).2
  tail : q.tail = p.countP isInsert
  first : q.tail ≤ wrap INIT_SIZE → q.N = wrap INIT_SIZE
  later : q.N = wrap INIT_SIZE ∨ wrap INIT_SIZE + wrap CONST_GROWTH ≤ q.N

/-- The next size is larger exactly if the sum does not wrap around. -/
theorem nextSize_gt (h : q.N < 2 ^ 32) : q.N < nextSize CONST_GROWTH q ↔
    0 < wrap CONST_GROWTH ∧ q.N + wrap CONST_GROWTH < 2 ^ 32 := by
  have hlt : wrap CONST_GROWTH < 2 ^ 32 := Nat.mod_lt _ (by decide)
  have hsum : nextSize CONST_GROWTH q = (q.N + wrap CONST_GROWTH) % 2 ^ 32 := (Nat.add_mod_mod ..).symm
  rw [hsum]
  by_cases hwrap : q.N + wrap CONST_GROWTH < 2 ^ 32
  · rw [Nat.mod_eq_of_lt hwrap]
    omega
  · rw [Nat.mod_eq_sub_mod (by omega),Nat.mod_eq_of_lt (by omega)]
    omega

theorem nextSize_eq (h : q.N < 2 ^ 32) (hgt : q.N < nextSize CONST_GROWTH q) :
    nextSize CONST_GROWTH q = q.N + wrap CONST_GROWTH := by
  obtain ⟨-,hlt⟩ := (nextSize_gt h).mp hgt
  rw [nextSize,wrap,← Nat.add_mod_mod]
  exact Nat.mod_eq_of_lt hlt

theorem done_of_run {p : List (Op T)} {rs : List (Option (Option T))}
    (h : runOps (exec CONST_GROWTH) p (new T INIT_SIZE) = .ok rs q) :
    Done INIT_SIZE CONST_GROWTH p rs q := by
  induction p using List.reverseRecOn generalizing rs q with
  | nil =>
    cases h
    exact ⟨rfl,new_rep T INIT_SIZE,rfl,fun _ => rfl,.inl rfl⟩
  | append_singleton p op ih =>
    obtain ⟨rs',q',r,hp,hop,rfl⟩ := runOps_concat_ok.mp h
    obtain ⟨rfl,hrep,htail,hfirst,hlater⟩ := ih hp
    cases op with
    | insert x =>
      obtain ⟨rfl,hrep',-,htail',hN⟩ := (insert_spec hrep x).of_ok hop
      have hcount : q.tail = (p ++ [Op.insert x]).countP isInsert := by
        rw [List.countP_append,← htail,htail']
        rfl
      rcases hN with ⟨hlt,hN⟩ | ⟨hfull,hN,hgt⟩
      · refine ⟨by rw [runPure_concat]; rfl,by rw [runPure_concat]; exact hrep',hcount,fun hle => ?_,?_⟩
        · exact hN.trans (hfirst (by omega))
        · rw [hN]
          exact hlater
      · rw [nextSize_eq hrep.small hgt] at hN hgt
        refine ⟨by rw [runPure_concat]; rfl,by rw [runPure_concat]; exact hrep',hcount,fun hle => ?_,?_⟩
        · have := hfirst (by omega)
          omega
        · omega
    | delete =>
      obtain ⟨rfl,hrep',htail',hN,-⟩ := (delete_spec hrep).of_ok hop
      have hcount : q.tail = (p ++ [Op.delete]).countP isInsert := by
        rw [List.countP_append,← htail,htail']
        rfl
      refine ⟨by rw [runPure_concat],by rw [runPure_concat]; exact hrep',hcount,fun hle => ?_,?_⟩
      · exact hN.trans (hfirst (htail' ▸ hle))
      · rw [hN]
        exact hlater

/-- With room for the first growth every run completes. -/
theorem run_ok (h : Roomy INIT_SIZE CONST_GROWTH) {p : List (Op T)} (hp : p.countP isInsert < 2 ^ 31) :
    ∃ rs q, runOps (exec CONST_GROWTH) p (new T INIT_SIZE) = .ok rs q := by
  induction p using List.reverseRecOn with
  | nil => exact ⟨_,_,rfl⟩
  | append_singleton p op ih =>
    rw [List.countP_append] at hp
    obtain ⟨rs,q,hq⟩ := ih (by omega)
    have hdone := done_of_run hq
    suffices hstep : Total (exec CONST_GROWTH op) q fun _ _ => True by
      obtain ⟨r,u,hu,-⟩ := hstep.exists_ok
      exact ⟨_,u,runOps_concat_ok.mpr ⟨rs,q,r,hq,hu,rfl⟩⟩
    cases op with
    | insert x =>
      refine (insert_spec hdone.rep x).mono (fun _ _ _ => trivial) fun _ _ hno => ?_
      obtain ⟨hfull,hno⟩ := hno
      have hone : List.countP isInsert [Op.insert x] = 1 := rfl
      have htail := hdone.tail
      have hlater := hdone.later
      have hroom : ¬ q.N < nextSize CONST_GROWTH q := by omega
      rw [nextSize_gt hdone.rep.small] at hroom
      have := h (by omega)
      omega
    | delete => exact (delete_spec hdone.rep).imp fun _ _ _ => trivial

/-- Every run of less than `2 ^ 31` insertions is that of the ideal queue exactly if the sum of the
two sizes does not wrap around, or no such run needs to grow. -/
theorem linear_ideal_iff [Inhabited T] (INIT_SIZE CONST_GROWTH : ℕ) :
    (∀ ops : List (Op T), ops.countP isInsert < 2 ^ 31 → Ideal INIT_SIZE CONST_GROWTH ops) ↔
      Roomy INIT_SIZE CONST_GROWTH := by
  constructor
  · intro h hsmall
    let p : List (Op T) := List.replicate (wrap INIT_SIZE) (.insert default)
    have hcount : p.countP isInsert = wrap INIT_SIZE := by
      rw [List.countP_replicate]
      rfl
    have hall : (p ++ [Op.insert default]).countP isInsert = wrap INIT_SIZE + 1 := by
      rw [List.countP_append,hcount]
      rfl
    obtain ⟨u,hu,-⟩ := h (p ++ [.insert default]) (by omega) _ (List.prefix_refl _)
    obtain ⟨rs,q,r,hq,hr,-⟩ := runOps_concat_ok.mp hu
    have hdone := done_of_run hq
    have htail := hdone.tail.trans hcount
    have hN := hdone.first htail.le
    obtain ⟨-,-,-,-,hlt | ⟨-,-,hgt⟩⟩ := (insert_spec hdone.rep default).of_ok hr
    · omega
    · rw [← hN]
      exact (nextSize_gt hdone.rep.small).mp hgt
  · intro h ops hops p hp
    have hcount : p.countP isInsert ≤ ops.countP isInsert := hp.sublist.countP_le
    obtain ⟨rs,q,hq⟩ := @run_ok T CONST_GROWTH INIT_SIZE h p (by omega)
    have hdone := done_of_run hq
    exact ⟨q,hdone.answers ▸ hq,hdone.rep.size⟩

/-- A growth by `2 ^ 32 - 1` makes an array of one slot empty. -/
theorem growth_wraps : ¬ Ideal 1 (2 ^ 32 - 1) [.insert 'a',.insert 'b'] := by
  intro h
  obtain ⟨q,hq,-⟩ := h _ (List.prefix_refl _)
  have hno : returns (runOps (exec (2 ^ 32 - 1)) [Op.insert 'a',.insert 'b']) (new Char 1)
      (fun _ _ => true) = false := by
    decide +kernel
  rw [returns,hq] at hno
  cases hno

end ResumePointers.Dsa.LinearQueue
