import ResumePointers.Lib.Runs
import ResumePointers.Networks.Lab3

/-! Two stations that run the loop of `networks_lab3/main.py` on one channel. How long they wait is
left out: any station may take its next step at any time, and a frame that is lost or damaged is
one that nobody hears. -/
namespace ResumePointers.Networks.Lab3

inductive Station
  | one
  | two
deriving DecidableEq

namespace Station

def MAC : Station → ℕ
  | one => 1
  | two => 2

def other : Station → Station
  | one => two
  | two => one

end Station

/-- `sendACK` of the receiver of a frame. -/
def sendACK (info : Info) : List (Option Bool) :=
  convertMessage (info.recieverMAC ++ info.senderMAC)

/-- `waitACK`, when `received_message` is heard in the window. -/
def waitACK (MAC : ℕ) (dest_MAC : ℤ) (received_message : List (Option Bool)) : Bool :=
  let ACK := strip_and_remove_x received_message
  if ACK.length = 4 then
    decide (ACK.drop 2 = decTobitstring MAC 2 ∧ ACK.take 2 = decTobitstring dest_MAC 2)
  else false

/-- The destination 0 is made the other station. -/
def address (s : Station) (message : Message) : Message :=
  if message.destMAC = 0 then { message with destMAC := s.other.MAC } else message

/-- What became so far of the frame whose window is open: it is on its way, it was heard and the
ACK is on its way, or it was heard by a station that it is not for. -/
inductive Pending
  | frame (signals : List (Option Bool))
  | ack (signals : List (Option Bool))
  | nothing
deriving DecidableEq

/-- A report of a received message; `message` tells the sender, and how many messages it had sent
before this one. -/
structure Report where
  station : Station
  message : Station × ℕ
  text : List Bool
  senderMAC : List Bool
deriving DecidableEq

/-- The queues of the stations, the messages taken off `SendQueue`, the windows that are open, the
frames that may be heard after their window, the reports, and the messages whose ACK was sent and
not heard. -/
structure State where
  InitQueue : Station → List Message
  SendQueue : Station → List Message
  sent : Station → List Message
  window : Station → Option Pending
  late : List ((Station × ℕ) × List (Option Bool))
  reported : List Report
  lost : List (Station × ℕ)

inductive Event
  | key (s : Station)
  | send (s : Station)
  | hear (s : Station)
  | hearLate (i : ℕ)
  | close (s : Station) (heard : Bool)

def start (SendQueue InitQueue : Station → List Message) : State :=
  ⟨InitQueue,SendQueue,fun _ => [],fun _ => none,[],[],[]⟩

def report (s : Station) (k : ℕ) (info : Info) : Report :=
  ⟨s.other,(s,k),info.text,info.senderMAC⟩

namespace State

/-- `on_key_event`. -/
def key (s : Station) (st : State) : State :=
  match st.InitQueue s with
  | [] => st
  | msg::rest => { st with
      InitQueue := Function.update st.InitQueue s rest
      SendQueue := Function.update st.SendQueue s (st.SendQueue s ++ [msg]) }

/-- The carrier is free: the first message of the queue is sent, and the window opens. -/
def send (s : Station) (st : State) : Option State :=
  match st.window s,st.SendQueue s with
  | none,msg::rest =>
    match frameGenerator s.MAC (address s msg) with
    | .ok bits => some { st with
        SendQueue := Function.update st.SendQueue s (address s msg::rest)
        window := Function.update st.window s (some (.frame (convertMessage bits))) }
    | .error _ => none
  | _,_ => none

/-- The carrier is busy: the other station hears the frame that `s` waits for. -/
def hear (s : Station) (st : State) : Option State :=
  match st.window s,st.window s.other with
  | some (.frame signals),none =>
    match getInfo s.other.MAC signals with
    | .ok info =>
      if info.isMyMsg ∧ ¬ info.collision then some { st with
        window := Function.update st.window s (some (.ack (sendACK info)))
        reported := st.reported ++ [report s (st.sent s).length info] }
      else some { st with window := Function.update st.window s (some .nothing) }
    | .error _ => none
  | _,_ => none

/-- A frame is heard when its sender does not wait any more: nobody hears the ACK. -/
def hearLate (i : ℕ) (st : State) : Option State :=
  match st.late[i]? with
  | some ((s,k),signals) =>
    if st.window s.other = none then
      match getInfo s.other.MAC signals with
      | .ok info =>
        if info.isMyMsg ∧ ¬ info.collision then some { st with
          late := st.late.eraseIdx i
          reported := st.reported ++ [report s k info]
          lost := (s,k)::st.lost }
        else some { st with late := st.late.eraseIdx i }
      | .error _ => none
    else none
  | none => none

/-- The window ends, and the ACK was heard in it or was not. -/
def close (s : Station) (heard : Bool) (st : State) : Option State :=
  match st.window s,st.SendQueue s with
  | some pending,msg::rest =>
    let received := match pending,heard with
      | .ack signals,true => signals
      | _,_ => []
    let late := match pending with
      | .frame signals => ((s,(st.sent s).length),signals)::st.late
      | _ => st.late
    let lost := match pending,heard with
      | .ack _,false => (s,(st.sent s).length)::st.lost
      | _,_ => st.lost
    let closed :=
      { st with window := Function.update st.window s none, late := late, lost := lost }
    if waitACK s.MAC msg.destMAC received then some { closed with
      SendQueue := Function.update st.SendQueue s rest
      sent := Function.update st.sent s (st.sent s ++ [msg]) }
    else some closed
  | _,_ => none

end State

def step : Event → State → Option State
  | .key s,st => some (st.key s)
  | .send s,st => st.send s
  | .hear s,st => st.hear s
  | .hearLate i,st => st.hearLate i
  | .close s heard,st => st.close s heard

/-- The steps as operations that cannot be made in every state. -/
def exec (e : Event) : EStateM Unit State Unit := fun st =>
  match step e st with
  | some t => .ok () t
  | none => .error () st

/-- The messages of each station in the order in which they are sent, with their addresses. -/
abbrev Log := Station → List Message

/-- The signals are those of the frame of message `k` of `s`. -/
def IsFrame (log : Log) (s : Station) (k : ℕ) (signals : List (Option Bool)) : Prop :=
  ∃ m bits, (log s)[k]? = some m ∧ frameGenerator s.MAC m = .ok bits ∧
    signals = convertMessage bits

/-- The other station took the message in, reported it, and the signals are its ACK. -/
def Taken (log : Log) (reported : List Report) (s : Station) (k : ℕ)
    (signals : List (Option Bool)) : Prop :=
  ∃ frame info, IsFrame log s k frame ∧ getInfo s.other.MAC frame = .ok info ∧
    info.isMyMsg = true ∧ signals = sendACK info ∧ report s k info ∈ reported

/-- A message that the other station can take in. -/
def Good (log : Log) (s : Station) (k : ℕ) : Prop :=
  ∃ m, (log s)[k]? = some m ∧ m.msg ≠ [] ∧ m.msg.length ≤ 16 ∧ m.destMAC = s.other.MAC

/-- The ACK for message `k` of `s` is on its way. -/
def ackOnWay (st : State) (s : Station) (k : ℕ) : ℕ :=
  match st.window s with
  | some (.ack _) => if k = (st.sent s).length then 1 else 0
  | _ => 0

def reports (st : State) (s : Station) (k : ℕ) : ℕ :=
  st.reported.countP fun r => r.message = (s,k)

/-- What holds in every state that is reached. -/
structure Inv (log : Log) (st : State) : Prop where
  queues : ∀ s, (st.sent s ++ st.SendQueue s ++ st.InitQueue s).map (address s) = log s
  head : ∀ s, st.window s ≠ none → ∃ m rest, st.SendQueue s = m::rest ∧ address s m = m
  frame : ∀ s signals, st.window s = some (.frame signals) →
    IsFrame log s (st.sent s).length signals
  late : ∀ f ∈ st.late, IsFrame log f.1.1 f.1.2 f.2
  ack : ∀ s signals, st.window s = some (.ack signals) →
    Taken log st.reported s (st.sent s).length signals
  station : ∀ r ∈ st.reported, r.station = r.message.1.other
  delivered : ∀ s k m, k < (st.sent s).length → (log s)[k]? = some m → m.msg ≠ [] →
    m.msg.length ≤ 16 → m.destMAC = s.other.MAC ∧
      ∃ r ∈ st.reported, r.station = s.other ∧ r.message = (s,k) ∧ r.text = m.msg
  once : ∀ s k, Good log s k → reports st s k =
    st.lost.count (s,k) + ackOnWay st s k + if k < (st.sent s).length then 1 else 0

variable {log : Log} {st t : State} {s : Station} {k : ℕ} {m : Message}
  {signals : List (Option Bool)} {info : Info}

theorem MAC_lt (s : Station) : s.MAC < 4 := by cases s <;> decide

theorem IsFrame.heard (h : IsFrame log s k signals) (hk : (log s)[k]? = some m)
    (hm : m.msg ≠ []) (hl : m.msg.length ≤ 16) (hd : m.destMAC.toNat < 4) :
    ∃ info, getInfo s.other.MAC signals = .ok info ∧
      (info.isMyMsg = true ↔ m.destMAC.toNat = s.other.MAC) ∧ info.collision = false ∧
      info.senderMAC = decTobitstring s.MAC 2 ∧ info.recieverMAC = decTobitstring m.destMAC 2 ∧
      info.text = m.msg := by
  obtain ⟨m',bits,hk',hf,rfl⟩ := h
  obtain rfl := Option.some.inj (hk.symm.trans hk')
  exact getInfo_frame hf hm hl (MAC_lt s) hd s.other.MAC

/-- A good message is taken in whenever it is heard, and its ACK is what the sender waits for. -/
theorem IsFrame.good (h : IsFrame log s k signals) (hg : Good log s k)
    (hi : getInfo s.other.MAC signals = .ok info) :
    info.isMyMsg = true ∧ info.collision = false ∧
      ∀ m, (log s)[k]? = some m → waitACK s.MAC m.destMAC (sendACK info) = true := by
  obtain ⟨m,hk,hm,hl,hd⟩ := hg
  have hdest : m.destMAC.toNat = s.other.MAC := by rw [hd]; rfl
  obtain ⟨info',hi',hmine,hcol,hsender,hrec,-⟩ :=
    h.heard hk hm hl (hdest ▸ MAC_lt s.other)
  obtain rfl := Except.ok.inj (hi.symm.trans hi')
  refine ⟨hmine.mpr hdest,hcol,fun m' hk' => ?_⟩
  obtain rfl := Option.some.inj (hk.symm.trans hk')
  have h₁ : (decTobitstring m.destMAC 2).length = 2 := by
    rw [hd]
    exact length_decTobitstring (MAC_lt s.other)
  have h₂ : (decTobitstring s.MAC 2).length = 2 := length_decTobitstring (MAC_lt s)
  rw [waitACK,sendACK,strip_convertMessage,hsender,hrec,if_pos (by simp [h₁,h₂]),
    List.take_left' h₁,List.drop_left' h₁]
  simp

/-- Whose ACK is accepted has reported the message, if the message is not too long. -/
theorem Taken.accepted {reported : List Report} (h : Taken log reported s k signals)
    (hk : (log s)[k]? = some m) (hm : m.msg ≠ []) (hl : m.msg.length ≤ 16)
    (hw : waitACK s.MAC m.destMAC signals = true) : m.destMAC = s.other.MAC ∧
      ∃ r ∈ reported, r.station = s.other ∧ r.message = (s,k) ∧ r.text = m.msg := by
  obtain ⟨frame,info,hf,hi,hmine,rfl,hr⟩ := h
  -- only an address of two bits can stand in an ACK of four
  have hlen : (decTobitstring m.destMAC 2).length = 2 := by
    rw [waitACK] at hw
    split_ifs at hw with h4
    rw [← (of_decide_eq_true hw).2,List.length_take_of_le (by omega)]
  have hd : m.destMAC.toNat < 4 := lt_of_length_decTobitstring hlen
  obtain ⟨info',hi',hdest,-,-,-,htext⟩ := hf.heard hk hm hl hd
  obtain rfl := Except.ok.inj (hi.symm.trans hi')
  have hto := hdest.mp hmine
  refine ⟨?_,_,hr,rfl,rfl,htext⟩
  cases s <;> simp only [Station.other,Station.MAC] at hto ⊢ <;> omega

theorem Inv.key (h : Inv log st) (s : Station) : Inv log (st.key s) := by
  rw [State.key]
  cases hq : st.InitQueue s with
  | nil => exact h
  | cons msg rest =>
    refine ⟨fun s' => ?_,fun s' hw => ?_,h.frame,h.late,h.ack,h.station,h.delivered,h.once⟩
    · by_cases hs : s' = s
      · subst hs
        rw [← h.queues s']
        simp [hq]
      · simp only [Function.update_of_ne hs]
        exact h.queues s'
    · obtain ⟨m,q,hm,ha⟩ := h.head s' hw
      by_cases hs : s' = s
      · subst hs
        exact ⟨m,q ++ [msg],by simp [hm],ha⟩
      · exact ⟨m,q,by simp only [Function.update_of_ne hs]; exact hm,ha⟩

@[simp] theorem address_address (s : Station) (m : Message) :
    address s (address s m) = address s m := by
  cases s <;> by_cases h : m.destMAC = 0 <;> simp [address,h,Station.other,Station.MAC]

/-- The head of the queue is the next message of the station. -/
theorem Inv.next (h : Inv log st) {rest : List Message} (hq : st.SendQueue s = m::rest) :
    (log s)[(st.sent s).length]? = some (address s m) := by
  rw [← h.queues s,hq]
  simp

/-- A window that is open after a change at the station `s`. -/
theorem window_update {window : Station → Option Pending} {o : Option Pending} {s s' : Station}
    {p : Pending} : Function.update window s o s' = some p ↔
      s' = s ∧ o = some p ∨ s' ≠ s ∧ window s' = some p := by
  by_cases hs : s' = s
  · subst hs
    simp
  · simp [hs]

theorem window_closed {window : Station → Option Pending} {s s' : Station} {p : Pending}
    (hw : Function.update window s none s' = some p) : s' ≠ s ∧ window s' = some p :=
  (window_update.mp hw).resolve_left fun h => nomatch h.2

theorem Inv.send (h : Inv log st) (ht : st.send s = some t) : Inv log t := by
  rw [State.send] at ht
  cases hw : st.window s with
  | some p => simp [hw] at ht
  | none =>
    cases hq : st.SendQueue s with
    | nil => simp [hw,hq] at ht
    | cons msg rest =>
      cases hf : frameGenerator s.MAC (address s msg) with
      | error e => simp [hw,hq,hf] at ht
      | ok bits =>
        simp only [hw,hq,hf,Option.some.injEq] at ht
        subst ht
        refine ⟨fun s' => ?_,fun s' hw' => ?_,fun s' signals hw' => ?_,h.late,
          fun s' signals hw' => ?_,h.station,h.delivered,fun s' k hg => ?_⟩
        · rw [← h.queues s']
          by_cases hs : s' = s
          · subst hs
            simp [hq]
          · simp [Function.update_of_ne hs]
        · by_cases hs : s' = s
          · subst hs
            exact ⟨address s' msg,rest,by simp,address_address ..⟩
          · simp only [Function.update_of_ne hs] at hw' ⊢
            exact h.head s' hw'
        · rcases window_update.mp hw' with ⟨rfl,hp⟩ | ⟨-,hp⟩
          · cases hp
            exact ⟨_,_,h.next hq,hf,rfl⟩
          · exact h.frame s' signals hp
        · rcases window_update.mp hw' with ⟨-,hp⟩ | ⟨-,hp⟩
          · cases hp
          · exact h.ack s' signals hp
        · refine (h.once s' k hg).trans ?_
          by_cases hs : s' = s
          · subst hs
            simp [ackOnWay,hw]
          · simp [ackOnWay,Function.update_of_ne hs]

theorem Taken.append {reported : List Report} (h : Taken log reported s k signals)
    (r : Report) : Taken log (reported ++ [r]) s k signals := by
  obtain ⟨frame,info,hf,hi,hmine,hsig,hr⟩ := h
  exact ⟨frame,info,hf,hi,hmine,hsig,List.mem_append_left _ hr⟩

theorem Inv.delivered_append (h : Inv log st) (r : Report) (s : Station) (k : ℕ) (m : Message)
    (hlt : k < (st.sent s).length) (hk : (log s)[k]? = some m) (hm : m.msg ≠ [])
    (hl : m.msg.length ≤ 16) : m.destMAC = s.other.MAC ∧
      ∃ r' ∈ st.reported ++ [r], r'.station = s.other ∧ r'.message = (s,k) ∧ r'.text = m.msg := by
  obtain ⟨hd,r',hr',hspec⟩ := h.delivered s k m hlt hk hm hl
  exact ⟨hd,r',List.mem_append_left _ hr',hspec⟩

theorem Inv.station_append (h : Inv log st) (s : Station) (k : ℕ) (info : Info) :
    ∀ r ∈ st.reported ++ [report s k info], r.station = r.message.1.other := by
  intro r hr
  rcases List.mem_append.mp hr with hr | hr
  · exact h.station r hr
  · rw [List.mem_singleton.mp hr]
    rfl

theorem countP_report (reported : List Report) (s s' : Station) (k k' : ℕ) (info : Info) :
    (reported ++ [report s k info]).countP (fun r => r.message = (s',k')) =
      reported.countP (fun r => r.message = (s',k')) + if (s,k) = (s',k') then 1 else 0 := by
  rw [List.countP_append,List.countP_singleton]
  simp [report]

theorem Inv.hear (h : Inv log st) (ht : st.hear s = some t) : Inv log t := by
  rw [State.hear] at ht
  split at ht
  case h_2 => cases ht
  case h_1 signals hw _ =>
  have hhead := h.head s (by rw [hw]; exact Option.some_ne_none _)
  split at ht
  case h_2 => cases ht
  case h_1 info hi =>
  have hhead' (p : Pending) (s' : Station)
      (hw' : Function.update st.window s (some p) s' ≠ none) :
      ∃ m rest, st.SendQueue s' = m::rest ∧ address s' m = m := by
    by_cases hs : s' = s
    · subst hs
      exact hhead
    · rw [Function.update_of_ne hs] at hw'
      exact h.head s' hw'
  split_ifs at ht with htake
  · obtain rfl := Option.some.inj ht
    refine ⟨h.queues,hhead' _,fun s' signals' hw' => ?_,h.late,fun s' signals' hw' => ?_,
      h.station_append s _ info,h.delivered_append _,fun s' k hg => ?_⟩
    · rcases window_update.mp hw' with ⟨-,hp⟩ | ⟨-,hp⟩
      · cases hp
      · exact h.frame s' signals' hp
    · rcases window_update.mp hw' with ⟨rfl,hp⟩ | ⟨-,hp⟩
      · cases hp
        exact ⟨signals,info,h.frame s' signals hw,hi,htake.1,rfl,by simp⟩
      · exact (h.ack s' signals' hp).append _
    · have hold := h.once s' k hg
      rw [reports] at hold ⊢
      rw [countP_report,hold]
      by_cases hs : s' = s
      · subst hs
        by_cases hk : k = (st.sent s').length <;> simp [ackOnWay,hw,hk,eq_comm]
      · have hs' : ¬ s = s' := fun he => hs he.symm
        simp [ackOnWay,Function.update_of_ne hs,hs']
  · obtain rfl := Option.some.inj ht
    refine ⟨h.queues,hhead' _,fun s' signals' hw' => ?_,h.late,fun s' signals' hw' => ?_,
      h.station,h.delivered,fun s' k hg => ?_⟩
    · rcases window_update.mp hw' with ⟨-,hp⟩ | ⟨-,hp⟩
      · cases hp
      · exact h.frame s' signals' hp
    · rcases window_update.mp hw' with ⟨-,hp⟩ | ⟨-,hp⟩
      · cases hp
      · exact h.ack s' signals' hp
    · refine (h.once s' k hg).trans ?_
      by_cases hs : s' = s
      · subst hs
        simp [ackOnWay,hw]
      · simp [ackOnWay,Function.update_of_ne hs]

theorem Inv.hearLate {i : ℕ} (h : Inv log st) (ht : st.hearLate i = some t) : Inv log t := by
  rw [State.hearLate] at ht
  split at ht
  case h_2 => cases ht
  case h_1 s k signals hi =>
  split_ifs at ht with hidle
  split at ht
  case h_2 => cases ht
  case h_1 info hinfo =>
  have hlate (f : (Station × ℕ) × List (Option Bool)) (hf : f ∈ st.late.eraseIdx i) :
      IsFrame log f.1.1 f.1.2 f.2 := h.late f (List.mem_of_mem_eraseIdx hf)
  split_ifs at ht with htake
  · obtain rfl := Option.some.inj ht
    refine ⟨h.queues,h.head,h.frame,hlate,fun s' signals' hw' => (h.ack s' signals' hw').append _,
      h.station_append s k info,h.delivered_append _,fun s' k' hg => ?_⟩
    have hold := h.once s' k' hg
    rw [reports] at hold ⊢
    rw [countP_report,hold,List.count_cons]
    by_cases hs : (s,k) = (s',k')
    · simp [hs,ackOnWay]
      omega
    · simp [hs,ackOnWay]
  · obtain rfl := Option.some.inj ht
    exact ⟨h.queues,h.head,h.frame,hlate,h.ack,h.station,h.delivered,h.once⟩

theorem waitACK_nil (MAC : ℕ) (dest_MAC : ℤ) : waitACK MAC dest_MAC [] = false := rfl

theorem ackOnWay_none (hw : st.window s = none) (k : ℕ) : ackOnWay st s k = 0 := by
  rw [ackOnWay,hw]

/-- A window ends and the message stays in the queue; an ACK on its way is counted as lost. -/
theorem Inv.shut (h : Inv log st) (s : Station) {late : List ((Station × ℕ) × List (Option Bool))}
    {lost : List (Station × ℕ)} (hlate : ∀ f ∈ late, IsFrame log f.1.1 f.1.2 f.2)
    (hlost : ∀ s' k, Good log s' k → lost.count (s',k) =
      st.lost.count (s',k) + if s' = s then ackOnWay st s k else 0) :
    Inv log { st with
      window := Function.update st.window s none, late := late, lost := lost } := by
  refine ⟨h.queues,fun s' hw => ?_,fun s' signals hw => h.frame s' signals (window_closed hw).2,hlate,
    fun s' signals hw => h.ack s' signals (window_closed hw).2,h.station,h.delivered,fun s' k hg => ?_⟩
  · obtain ⟨p,hp⟩ := Option.ne_none_iff_exists'.mp hw
    exact h.head s' (by rw [(window_closed hp).2]; exact Option.some_ne_none _)
  · rw [hlost s' k hg]
    refine (h.once s' k hg).trans ?_
    by_cases hs : s' = s
    · subst hs
      simp [ackOnWay]
    · simp [ackOnWay,hs]

/-- The window of an accepted ACK ends, and its message is taken off the queue. -/
theorem Inv.pop (h : Inv log st) (hw : st.window s = some (.ack signals)) {msg : Message}
    {rest : List Message} (hq : st.SendQueue s = msg::rest)
    (hack : waitACK s.MAC msg.destMAC signals = true) : Inv log { st with
      window := Function.update st.window s none
      SendQueue := Function.update st.SendQueue s rest
      sent := Function.update st.sent s (st.sent s ++ [msg]) } := by
  have hmsg : address s msg = msg := by
    obtain ⟨m,q,hq',ha⟩ := h.head s (by rw [hw]; exact Option.some_ne_none _)
    obtain ⟨rfl,-⟩ := List.cons.inj (hq.symm.trans hq')
    exact ha
  have hnext := h.next hq
  rw [hmsg] at hnext
  have hlen {s' : Station} (hs : s' ≠ s) :
      Function.update st.sent s (st.sent s ++ [msg]) s' = st.sent s' := Function.update_of_ne hs ..
  refine ⟨fun s' => ?_,fun s' hw' => ?_,fun s' signals' hw' => ?_,h.late,fun s' signals' hw' => ?_,
    h.station,fun s' k m hlt hk hne hl => ?_,fun s' k hg => ?_⟩
  · rw [← h.queues s']
    by_cases hs : s' = s
    · subst hs
      simp [hq]
    · simp [Function.update_of_ne hs]
  · obtain ⟨p,hp⟩ := Option.ne_none_iff_exists'.mp hw'
    obtain ⟨hs,hp'⟩ := window_closed hp
    simp only [Function.update_of_ne hs]
    exact h.head s' (by rw [hp']; exact Option.some_ne_none _)
  · obtain ⟨hs,hp⟩ := window_closed hw'
    simp only [hlen hs]
    exact h.frame s' signals' hp
  · obtain ⟨hs,hp⟩ := window_closed hw'
    simp only [hlen hs]
    exact h.ack s' signals' hp
  · by_cases hs : s' = s
    · subst hs
      simp only [Function.update_self,List.length_append,List.length_singleton] at hlt
      rcases Nat.lt_succ_iff_lt_or_eq.mp hlt with hlt | rfl
      · exact h.delivered s' k m hlt hk hne hl
      · obtain rfl := Option.some.inj (hnext.symm.trans hk)
        exact (h.ack s' signals hw).accepted hk hne hl hack
    · simp only [hlen hs] at hlt
      exact h.delivered s' k m hlt hk hne hl
  · refine (h.once s' k hg).trans ?_
    by_cases hs : s' = s
    · subst hs
      have hnew : ackOnWay { st with
          window := Function.update st.window s' none
          SendQueue := Function.update st.SendQueue s' rest
          sent := Function.update st.sent s' (st.sent s' ++ [msg]) } s' k = 0 :=
        ackOnWay_none (by simp) k
      rw [hnew,ackOnWay,hw]
      simp only [Function.update_self,List.length_append,List.length_singleton]
      split_ifs <;> omega
    · simp [ackOnWay,Function.update_of_ne hs]

theorem Inv.close {heard : Bool} (h : Inv log st) (ht : st.close s heard = some t) :
    Inv log t := by
  rw [State.close] at ht
  split at ht
  case h_2 => cases ht
  case h_1 pending msg rest hw hq =>
  have hzero (hp : ∀ signals, pending ≠ .ack signals) (s' : Station) (k : ℕ) :
      st.lost.count (s',k) = st.lost.count (s',k) + if s' = s then ackOnWay st s k else 0 := by
    rw [ackOnWay,hw]
    cases pending with
    | ack signals => exact absurd rfl (hp signals)
    | frame signals => simp
    | nothing => simp
  cases pending with
  | frame signals =>
    simp only [waitACK_nil] at ht
    obtain rfl := Option.some.inj ht
    refine h.shut s (fun f hf => ?_) fun s' k _ => hzero (by simp) s' k
    rcases List.mem_cons.mp hf with rfl | hf
    · exact h.frame s signals hw
    · exact h.late f hf
  | nothing =>
    simp only [waitACK_nil] at ht
    obtain rfl := Option.some.inj ht
    exact h.shut s h.late fun s' k _ => hzero (by simp) s' k
  | ack signals =>
    cases heard with
    | false =>
      simp only [waitACK_nil] at ht
      obtain rfl := Option.some.inj ht
      refine h.shut s h.late fun s' k _ => ?_
      rw [List.count_cons,ackOnWay,hw]
      by_cases hs : s' = s
      · subst hs
        by_cases hk : k = (st.sent s').length
        · simp [hk]
        · have hk' : ¬ (st.sent s').length = k := fun he => hk he.symm
          simp [hk,hk']
      · have hs' : ¬ s = s' := fun he => hs he.symm
        simp [hs,hs']
    | true =>
      dsimp only at ht
      split_ifs at ht with hack
      · obtain rfl := Option.some.inj ht
        exact h.pop hw hq hack
      · obtain rfl := Option.some.inj ht
        refine h.shut s h.late fun s' k hg => ?_
        -- the ACK of a message that can be taken in is never turned down
        split_ifs with hs
        · subst hs
          rw [ackOnWay,hw]
          dsimp only
          split_ifs with hk
          · subst hk
            obtain ⟨frame,info,hf,hi,-,rfl,-⟩ := h.ack s' signals hw
            obtain ⟨m,q,hq',ha⟩ := h.head s' (by rw [hw]; exact Option.some_ne_none _)
            obtain ⟨rfl,-⟩ := List.cons.inj (hq.symm.trans hq')
            have hnext := h.next hq
            rw [ha] at hnext
            exact absurd ((hf.good hg hi).2.2 msg hnext) hack
          · rfl
        · rfl

theorem Inv.start (SendQueue InitQueue : Station → List Message) :
    Inv (fun s => (SendQueue s ++ InitQueue s).map (address s)) (start SendQueue InitQueue) := by
  refine ⟨fun s => rfl,fun s hw => absurd rfl hw,fun s signals hw => ?_,fun f hf => ?_,
    fun s signals hw => ?_,fun r hr => ?_,fun s k m hlt => ?_,fun s k _ => rfl⟩
  · cases hw
  · cases hf
  · cases hw
  · cases hr
  · cases hlt

/-- One message of one bit, from the first station to the second. -/
def oneMessage : Station → List Message
  | .one => [⟨[true],2⟩]
  | .two => []

/-- The states of all runs, in any order of the steps and with any losses. -/
def Reached (SendQueue InitQueue : Station → List Message) : State → Prop :=
  Reach exec (fun _ _ => True) fun st => st = start SendQueue InitQueue

theorem Reached.inv {SendQueue InitQueue : Station → List Message}
    (h : Reached SendQueue InitQueue st) :
    Inv (fun s => (SendQueue s ++ InitQueue s).map (address s)) st := by
  refine Reach.invariant (fun st hst => hst ▸ Inv.start ..) (fun e st hI _ => ?_) h
  rw [Partial,Post,exec]
  cases ht : step e st with
  | none => trivial
  | some t =>
    cases e with
    | key s =>
      obtain rfl := Option.some.inj ht
      exact hI.key s
    | send s => exact hI.send ht
    | hear s => exact hI.hear ht
    | hearLate i => exact hI.hearLate ht
    | close s heard => exact hI.close ht

theorem address_msg (s : Station) (m : Message) : (address s m).msg = m.msg := by
  rw [address]
  split_ifs <;> rfl

theorem ackOnWay_le (st : State) (s : Station) (k : ℕ) :
    ackOnWay st s k + (if k < (st.sent s).length then 1 else 0) ≤ 1 := by
  rw [ackOnWay]
  split <;> split_ifs <;> omega

/-- The ACK for the first frame is not heard, and the message is sent and reported again. -/
theorem reported_twice : ∃ st, Reached oneMessage (fun _ => []) st ∧
    st.sent .one = [⟨[true],2⟩] ∧
    st.reported.countP (fun r => r.station = .two ∧ r.message = (.one,0) ∧ r.text = [true]) = 2 := by
  obtain ⟨rs,st,hrun,hp⟩ := exists_of_returns (m := runOps exec
    [.send .one,.hear .one,.close .one false,.send .one,.hear .one,.close .one true])
    (s := start oneMessage fun _ => []) (p := fun _ st => decide (st.sent .one = [⟨[true],2⟩] ∧
      st.reported.countP (fun r => r.station = .two ∧ r.message = (.one,0) ∧ r.text = [true]) = 2))
    (by decide +kernel)
  have hst := of_decide_eq_true hp
  exact ⟨st,Reach.runOps (.init rfl) hrun,hst.1,hst.2⟩

/-- A message that has been taken off `SendQueue` was reported by the receiver it is addressed to,
which reports it at most once more than ACKs for it were not heard. Message `k` of a station is
the one that stands `k` places from the front of its queues at the start. -/
theorem delivered_and_reported {SendQueue InitQueue : Station → List Message}
    (hm : ∀ s, ∀ m ∈ SendQueue s ++ InitQueue s, m.msg ≠ [])
    (h : Reached SendQueue InitQueue st) (hk : (SendQueue s ++ InitQueue s)[k]? = some m)
    (hl : m.msg.length ≤ 16) :
    (∀ m', (st.sent s)[k]? = some m' → m'.msg = m.msg ∧ ∃ r ∈ st.reported,
      r.station.MAC = (address s m).destMAC ∧ r.message = (s,k) ∧ r.text = m.msg) ∧
    st.reported.countP (fun r => r.message = (s,k) ∧ r.station.MAC = (address s m).destMAC) ≤
      st.lost.count (s,k) + 1 := by
  have hI := h.inv
  have hne := hm s m (List.mem_of_getElem? hk)
  have hlog : ((SendQueue s ++ InitQueue s).map (address s))[k]? = some (address s m) := by
    rw [List.getElem?_map,hk]
    rfl
  rw [← address_msg s] at hne hl
  constructor
  · intro m' hm'
    have hlt := (List.getElem?_eq_some_iff.mp hm').1
    obtain ⟨hd,r,hr,hst,hmsg,htext⟩ := hI.delivered s k _ hlt hlog hne hl
    have hsame : address s m' = address s m := by
      have := hI.queues s
      rw [List.map_append,List.map_append,List.append_assoc] at this
      rw [← this,List.getElem?_append_left (by simpa using hlt),List.getElem?_map,hm'] at hlog
      exact Option.some.inj hlog
    refine ⟨?_,r,hr,?_,hmsg,htext.trans (address_msg s m)⟩
    · rw [← address_msg s m',hsame,address_msg]
    · rw [hst,hd]
  · by_cases hd : (address s m).destMAC = s.other.MAC
    · have honce := hI.once s k ⟨_,hlog,hne,hl,hd⟩
      have hle := ackOnWay_le st s k
      have hsub : st.reported.countP (fun r => r.message = (s,k) ∧
          r.station.MAC = (address s m).destMAC) ≤ reports st s k :=
        List.countP_mono_left fun r _ hr => decide_eq_true (of_decide_eq_true hr).1
      omega
    · have hnone : st.reported.countP (fun r => r.message = (s,k) ∧
          r.station.MAC = (address s m).destMAC) = 0 := by
        refine List.countP_eq_zero.mpr fun r hr hr' => hd ?_
        obtain ⟨hmsg,hmac⟩ := of_decide_eq_true hr'
        rw [← hmac,hI.station r hr,hmsg]
      omega

/-- The message of one bit is sent, reported and acknowledged at once. -/
theorem delivered_and_reported_at_once : ∃ st, Reached oneMessage (fun _ => []) st ∧
    st.sent .one = [⟨[true],2⟩] ∧
    (∀ m', (st.sent .one)[0]? = some m' → m'.msg = [true] ∧ ∃ r ∈ st.reported,
      r.station.MAC = (address .one ⟨[true],2⟩).destMAC ∧ r.message = (.one,0) ∧
        r.text = [true]) ∧
    st.reported.countP (fun r => r.message = (.one,0) ∧
      r.station.MAC = (address .one ⟨[true],2⟩).destMAC) ≤ st.lost.count (.one,0) + 1 := by
  obtain ⟨rs,st,hrun,hp⟩ := exists_of_returns (m := runOps exec
    [.send .one,.hear .one,.close .one true]) (s := start oneMessage fun _ => [])
    (p := fun _ st => decide (st.sent .one = [⟨[true],2⟩])) (by decide +kernel)
  have hreach : Reached oneMessage (fun _ => []) st := Reach.runOps (.init rfl) hrun
  refine ⟨st,hreach,of_decide_eq_true hp,?_⟩
  refine delivered_and_reported (fun s m hm => ?_) hreach (s := .one) (k := 0) (m := ⟨[true],2⟩)
    rfl (by decide)
  cases s with
  | one =>
    rw [List.mem_singleton.mp hm]
    exact List.cons_ne_nil _ _
  | two => cases hm

end ResumePointers.Networks.Lab3
