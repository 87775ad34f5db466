import ResumePointers.Lib.MixedRadix

/-! The two readings of a payoff list (`game_theory_algos/normal_form/q1.py`): the array
of `make_util_matrix` and the index of `sel_index`. -/
namespace ResumePointers.NormalForm

variable {α β : Type}

/-- A numpy array by its shape and its entries; `none` is an `IndexError`. -/
structure Ndarray (α : Type) where
  shape : List ℕ
  entry : List ℕ → Option α

/-- `data.reshape(shape)` of a one-dimensional array, in C order: the last index changes
fastest. The sizes have to agree. -/
def reshape (data : List α) (shape : List ℕ) : Option (Ndarray α) :=
  if data.length = shape.prod then
    some ⟨shape,fun index => if Digits index shape then data[horner index shape 0]? else none⟩
  else none

/-- `np.transpose`: the axes in reverse order. -/
def transpose (a : Ndarray α) : Ndarray α := ⟨a.shape.reverse,fun index => a.entry index.reverse⟩

/-- The loop of `make_util_matrix` over `range(0, len(util_list), num_players)`. -/
def tup_list (num_players : ℕ) (util_list : List α) : Option (List (List α)) :=
  (List.range' 0 ((util_list.length + num_players - 1) / num_players) num_players).mapM fun i =>
    (List.range num_players).mapM fun j => util_list[i + j]?

/-- `make_util_matrix` for at least two players; an entry is the tuple of the payoffs. -/
def make_util_matrix (num_players : ℕ) (strategy : List ℕ) (util_list : List α) :
    Option (Ndarray (List α)) := do
  let data ← tup_list num_players util_list
  let util_matrix ← reshape data strategy.reverse
  return transpose util_matrix

/-- The loop of `sel_index` over `args`. -/
def selLoop (multiplier : List ℕ) : List ℕ → ℕ → ℕ → Option ℕ
  | [],_,result => some result
  | arg::args,i,result => do
    let m ← multiplier[i]?
    selLoop multiplier args (i + 1) (result + arg * m)

/-- `sel_index` -/
def sel_index (player : ℕ) (args multiplier : List ℕ) (num_players : ℕ) : Option ℕ := do
  let result ← selLoop multiplier args 0 0
  return result * num_players + player

/-- The loop of `main` that fills `multiplier`. -/
def multiplierLoop : List ℕ → ℕ → List ℕ
  | [],_ => []
  | c::strategies,temp => temp::multiplierLoop strategies (temp * c)

/-- `multiplier` of `main` -/
def multiplier (strategies : List ℕ) : List ℕ := multiplierLoop strategies 1

theorem reshape_spec {data : List α} {shape : List ℕ} (h : data.length = shape.prod) :
    ∃ a, reshape data shape = some a ∧
      ∀ index, Digits index shape → a.entry index = data[horner index shape 0]? :=
  ⟨_,if_pos h,fun _ hindex => if_pos hindex⟩

theorem exists_mapM {f : α → Option β} {l : List α} (h : ∀ a ∈ l, ∃ b, f a = some b) :
    ∃ l', l.mapM f = some l' ∧ l'.length = l.length ∧ ∀ k : ℕ, l'[k]? = l[k]?.bind f := by
  induction l with
  | nil => exact ⟨[],rfl,rfl,fun k => rfl⟩
  | cons a l ih =>
    obtain ⟨b,hb⟩ := h a List.mem_cons_self
    obtain ⟨l',hl',hlen,hget⟩ := ih fun x hx => h x (List.mem_cons_of_mem a hx)
    refine ⟨b::l',by simp [List.mapM_cons,hb,hl'],by simp [hlen],fun k => ?_⟩
    cases k with
    | zero => simp [hb]
    | succ k => simpa using hget k

/-- Tuple `k` holds the payoffs from `k * num_players` on. -/
theorem tup_list_spec {n N : ℕ} {util_list : List α} (hn : 0 < n)
    (hlen : util_list.length = n * N) :
    ∃ data, tup_list n util_list = some data ∧ data.length = N ∧
      ∀ k < N, ∀ player < n, (data[k]?.bind (·[player]?)) = util_list[k * n + player]? := by
  have hcount : (util_list.length + n - 1) / n = N := by
    rw [hlen,Nat.add_sub_assoc hn,Nat.mul_add_div hn,Nat.div_eq_of_lt (by omega),Nat.add_zero]
  have hle (k : ℕ) (hk : k < N) : 0 + n * k + n ≤ util_list.length := by
    have := Nat.mul_le_mul_left n (Nat.succ_le_of_lt hk)
    rw [Nat.mul_succ] at this
    omega
  have hinner (i : ℕ) (hi : i + n ≤ util_list.length) :=
    exists_mapM (f := fun j => util_list[i + j]?) (l := List.range n) fun j hj =>
      ⟨_,List.getElem?_eq_getElem (by rw [List.mem_range] at hj; omega)⟩
  obtain ⟨data,hdata,hsize,hget⟩ := exists_mapM (l := List.range' 0 N n)
    (f := fun i => (List.range n).mapM fun j => util_list[i + j]?) fun i hi => by
      obtain ⟨k,hk,rfl⟩ := List.mem_range'.mp hi
      obtain ⟨t,ht,-⟩ := hinner _ (hle k hk)
      exact ⟨t,ht⟩
  refine ⟨data,by rw [tup_list,hcount]; exact hdata,by rw [hsize,List.length_range'],?_⟩
  intro k hk player hplayer
  obtain ⟨t,ht,-,hentry⟩ := hinner _ (hle k hk)
  rw [hget,List.getElem?_range' hk,Option.bind_some,ht,Option.bind_some,hentry,
    List.getElem?_range hplayer,Option.bind_some,Nat.zero_add,Nat.mul_comm]

theorem selLoop_spec {args c : List ℕ} (h : Digits args c) (before : List ℕ) (w result : ℕ) :
    selLoop (before ++ multiplierLoop c w) args before.length result =
      some (result + w * radix args c) := by
  induction h generalizing before w result with
  | nil => rfl
  | @cons arg b args c _ _ ih =>
    have hget : (before ++ multiplierLoop (b::c) w)[before.length]? = some w := by
      rw [List.getElem?_append_right le_rfl,Nat.sub_self]
      rfl
    have hrest := ih (before ++ [w]) (w * b) (result + arg * w)
    rw [List.append_assoc,List.length_append] at hrest
    rw [selLoop,hget,Option.bind_eq_bind,Option.bind_some]
    refine hrest.trans (congrArg some ?_)
    rw [radix]
    ring

/-- `sel_index` reads the strategies as the digits of a number. -/
theorem sel_index_eq {args strategies : List ℕ} (h : Digits args strategies) (player n : ℕ) :
    sel_index player args (multiplier strategies) n = some (radix args strategies * n + player) := by
  have hloop := selLoop_spec h [] 1 0
  rw [List.nil_append,Nat.zero_add,Nat.one_mul] at hloop
  rw [sel_index,multiplier]
  exact congrArg (·.bind fun result => some (result * n + player)) hloop

theorem make_util_matrix_spec {n : ℕ} {strategies : List ℕ} {gamedata : List α} (hn : 0 < n)
    (hlen : gamedata.length = n * strategies.prod) :
    ∃ util_matrix, make_util_matrix n strategies gamedata = some util_matrix ∧
      ∀ s, Digits s strategies → ∀ player < n,
        (util_matrix.entry s).bind (·[player]?) = gamedata[radix s strategies * n + player]? := by
  obtain ⟨data,hdata,hsize,hentry⟩ := tup_list_spec hn hlen
  obtain ⟨a,ha,hindex⟩ := reshape_spec (hsize.trans (List.prod_reverse strategies).symm)
  refine ⟨transpose a,?_,fun s hs player hplayer => ?_⟩
  · rw [make_util_matrix,hdata,Option.bind_eq_bind,Option.bind_some,ha]
    rfl
  · rw [← hentry _ (radix_lt hs) player hplayer,← horner_reverse hs.length_eq,transpose,
      hindex _ (List.rel_reverse hs)]

/-- The payoffs for a profile are in the list. -/
theorem index_lt {s strategies : List ℕ} {n N player : ℕ} (hs : Digits s strategies)
    (hplayer : player < n) (hlen : N = n * strategies.prod) : radix s strategies * n + player < N := by
  have := Nat.mul_le_mul_left n (Nat.succ_le_of_lt (radix_lt hs))
  rw [Nat.mul_succ,Nat.mul_comm] at this
  omega

/-- The array and the index give every player the same payoff, and no two profiles share
an index. -/
theorem payoffs_agree (n : ℕ) (hn : 2 ≤ n) (strategies : List ℕ) (hplayers : strategies.length = n)
    (gamedata : List α) (hlen : gamedata.length = n * strategies.prod) :
    ∃ util_matrix, make_util_matrix n strategies gamedata = some util_matrix ∧
      (∀ s, Digits s strategies → ∀ player < n, ∃ index payoff,
        sel_index player s (multiplier strategies) n = some index ∧
        gamedata[index]? = some payoff ∧
        (util_matrix.entry s).bind (·[player]?) = some payoff) ∧
      ∀ s s', Digits s strategies → Digits s' strategies → ∀ player < n, ∀ player' < n,
        sel_index player s (multiplier strategies) n =
          sel_index player' s' (multiplier strategies) n → s = s' := by
  obtain ⟨util_matrix,hmatrix,hentry⟩ := make_util_matrix_spec (by omega) hlen
  refine ⟨util_matrix,hmatrix,fun s hs player hplayer => ?_,?_⟩
  · have hget := List.getElem?_eq_getElem (index_lt hs hplayer hlen)
    exact ⟨_,_,sel_index_eq hs player n,hget,(hentry s hs player hplayer).trans hget⟩
  · intro s s' hs hs' player hplayer player' hplayer' heq
    rw [sel_index_eq hs,sel_index_eq hs',Option.some_inj] at heq
    refine radix_inj hs hs' ?_
    have hdiv := congrArg (· / n) heq
    simpa [Nat.mul_comm _ n,Nat.mul_add_div (by omega : 0 < n),Nat.div_eq_of_lt,hplayer,
      hplayer'] using hdiv

theorem payoffs_agree_two_by_three :
    ∃ util_matrix, make_util_matrix 2 [2,3] (List.range 12) = some util_matrix ∧
      ∀ s, Digits s [2,3] → ∀ player < 2, ∃ index payoff,
        sel_index player s (multiplier [2,3]) 2 = some index ∧
        (List.range 12)[index]? = some payoff ∧
        (util_matrix.entry s).bind (·[player]?) = some payoff := by
  obtain ⟨util_matrix,hmatrix,hpayoff,-⟩ :=
    payoffs_agree 2 le_rfl [2,3] rfl (List.range 12) (by decide)
  exact ⟨util_matrix,hmatrix,hpayoff⟩

end ResumePointers.NormalForm
