import Mathlib.Data.List.Nodup
import Mathlib.Logic.Function.Basic
import TreeMiner.Lib.Bytes
import TreeMiner.Lib.Steps
import TreeMiner.Server.Accounts

/-!
# The MQTT broker's sessions (`broker.py`)

Every connection has a handler, a coroutine that gives way at each `await`. A handler
accepts a session, registers it under its `client_id`, serves packets until the
connection ends, and then takes the entry under its `client_id` out again. Whether
that is still its own entry it does not ask. So a client that comes back before the
handler of its old connection has finished loses its new entry to it.

`served_iff` says when that does not happen: the newest session of a `client_id` is
registered, and reached by what is published to it, in every state of a run exactly
when no handler's last step finds the entry of a session that is still being served.

What a handler does between two `await`s is one step. `_clients` changes only under
`_lock`, which a publisher keeps over its whole loop; waiting for it is being in a
phase whose next step needs it. Handlers may get it in any order. Left out are the
bytes of the packets, the acknowledgements, and `stop`.
-/

namespace TreeMiner.Broker

open Cxx Steps Server

/-! ## Topics -/

/-- The loop of `mqtt_topic_matches`. -/
def matchParts : List Str → List Str → Bool
  | p :: ps, t :: ts =>
    if p = ['#'] then true
    else if p = ['+'] then matchParts ps ts
    else if p ≠ t then false
    else matchParts ps ts
  | p :: _, [] => p = ['#']
  | [], ts => ts.isEmpty

/-- `mqtt_topic_matches`. -/
def mqttTopicMatches (pattern topic : Str) : Bool :=
  matchParts (pattern.splitOn '/') (topic.splitOn '/')

/-! ## The broker -/

/-- A PUBLISH packet for clients. -/
structure Packet where
  topic : Str
  payload : Bytes
  qos : Nat
  deriving DecidableEq

/-- `ClientSession`, with what its writer has been given. -/
structure ClientSession where
  client_id : Str
  subscriptions : List Str
  isOpen : Bool
  received : List Packet

/-- A pattern of the session matches the topic. -/
def ClientSession.wants (s : ClientSession) (topic : Str) : Bool :=
  s.subscriptions.any fun pattern => mqttTopicMatches pattern topic

/-- `writer.write`: a closed writer drops it. -/
def ClientSession.write (s : ClientSession) (pkt : Packet) : ClientSession :=
  if s.isOpen then { s with received := s.received ++ [pkt] } else s

/-- Where a handler waits. -/
inductive Phase where
  /-- In `_do_connect`. -/
  | connecting
  /-- For the lock, to register. -/
  | registering (client_id : Str)
  /-- For a packet. -/
  | serving
  /-- For the lock, in `_handle_publish`. -/
  | publishing (pkt : Packet)
  /-- It has the lock, in `_handle_publish`. -/
  | routing
  /-- For the platform's handlers. -/
  | handling
  /-- For the lock, in `finally`. -/
  | ending
  | ended
  deriving DecidableEq

/-- The handler has its session registered, or has had. -/
def Phase.accepted : Phase → Bool
  | .connecting | .registering _ => false
  | _ => true

/-- The handler has registered its session and still serves it. -/
def Phase.live : Phase → Bool
  | .serving | .publishing _ | .routing | .handling => true
  | _ => false

/-- Whoever has the lock across an `await`: a loop over sessions. -/
structure Route where
  handler : Option Nat
  pkt : Packet
  todo : List Nat

/-- `MQTTBroker`, with its handlers. Sessions go by the number of their connection. -/
structure MQTTBroker where
  clients : List (Str × Nat)
  sessions : Nat → ClientSession
  phase : Nat → Phase
  lock : Option Route

/-- No client yet. -/
def start : MQTTBroker where
  clients := []
  sessions := fun _ => ⟨[], [], true, []⟩
  phase := fun _ => .connecting
  lock := none

/-- `_clients.pop(client_id, None)`. -/
def pop (clients : List (Str × Nat)) (client_id : Str) : List (Str × Nat) :=
  clients.filter fun y => y.1 ≠ client_id

namespace MQTTBroker

def setPhase (b : MQTTBroker) (i : Nat) (p : Phase) : MQTTBroker :=
  { b with phase := Function.update b.phase i p }

def modifySession (b : MQTTBroker) (i : Nat) (f : ClientSession → ClientSession) : MQTTBroker :=
  { b with sessions := Function.update b.sessions i (f (b.sessions i)) }

/-- `writer.close()`. -/
def close (b : MQTTBroker) (i : Nat) : MQTTBroker :=
  b.modifySession i fun s => { s with isOpen := false }

/-- The phase of a connection is not a part of the table of clients. -/
@[simp] theorem setPhase_clients {b : MQTTBroker} {i : Nat} {p : Phase} :
    (b.setPhase i p).clients = b.clients := rfl

/-- Nor does it belong to the session. -/
@[simp] theorem setPhase_sessions {b : MQTTBroker} {i : Nat} {p : Phase} :
    (b.setPhase i p).sessions = b.sessions := rfl

/-- Nor does it take the lock. -/
@[simp] theorem setPhase_lock {b : MQTTBroker} {i : Nat} {p : Phase} :
    (b.setPhase i p).lock = b.lock := rfl

/-- Only the connection that is named changes its phase. -/
theorem setPhase_phase {b : MQTTBroker} {i j : Nat} {p : Phase} :
    (b.setPhase i p).phase j = if j = i then p else b.phase j :=
  Function.update_apply ..

/-- What is done to a session leaves the table of clients as it is. -/
@[simp] theorem modifySession_clients {b : MQTTBroker} {i : Nat}
    {f : ClientSession → ClientSession} : (b.modifySession i f).clients = b.clients := rfl

/-- A session is changed without a change of phase. -/
@[simp] theorem modifySession_phase {b : MQTTBroker} {i : Nat}
    {f : ClientSession → ClientSession} : (b.modifySession i f).phase = b.phase := rfl

/-- A session is changed without the lock. -/
@[simp] theorem modifySession_lock {b : MQTTBroker} {i : Nat}
    {f : ClientSession → ClientSession} : (b.modifySession i f).lock = b.lock := rfl

/-- Only the session that is named is changed. -/
theorem modifySession_sessions {b : MQTTBroker} {i j : Nat} {f : ClientSession → ClientSession} :
    (b.modifySession i f).sessions j = if j = i then f (b.sessions i) else b.sessions j :=
  Function.update_apply ..

/-- Close the writer of the session registered under the id, if there is one. -/
def closeOld (b : MQTTBroker) (client_id : Str) : MQTTBroker :=
  match b.clients.lookup client_id with
  | some old => b.close old
  | none => b

/-- The sessions a publisher's loop is over; `_handle_publish` leaves out its own
`client_id`. -/
def targets (b : MQTTBroker) : Option Str → List Nat
  | none => b.clients.map Prod.snd
  | some client_id => (pop b.clients client_id).map Prod.snd

end MQTTBroker

/-- What can happen next. -/
inductive Input where
  /-- `_do_connect` returns a session. -/
  | connected (i : Nat) (client_id : Str)
  /-- `_do_connect` returns none, or raises. -/
  | refused (i : Nat)
  /-- The handler gets the lock and registers. -/
  | register (i : Nat) (client_id : Str)
  | subscribe (i : Nat) (filters : List Str)
  | unsubscribe (i : Nat) (filters : List Str)
  /-- A PUBLISH packet of the client. -/
  | received (i : Nat) (pkt : Packet)
  /-- A packet that changes nothing. -/
  | other (i : Nat)
  /-- `_handle_publish` gets the lock. -/
  | route (i : Nat)
  /-- `publish` gets the lock. -/
  | publish (pkt : Packet)
  /-- The next session of the loop that has the lock. -/
  | deliver
  /-- The loop is over and gives the lock back. -/
  | release
  /-- The platform's handlers have run. -/
  | handled (i : Nat)
  /-- The connection is closed or lost, the client disconnects, or a packet raises. -/
  | left (i : Nat)
  /-- The handler gets the lock in `finally`, and ends. -/
  | cleanup (i : Nat)
  deriving DecidableEq

/-- One step. -/
def step (b : MQTTBroker) : Input → Option MQTTBroker
  | .connected i client_id =>
    if b.phase i = .connecting then
      some ((b.modifySession i fun s => { s with client_id := client_id }).setPhase i
        (.registering client_id))
    else none
  | .refused i =>
    if b.phase i = .connecting then some ((b.close i).setPhase i .ended) else none
  | .register i client_id =>
    if b.phase i = .registering client_id ∧ b.lock.isNone then
      some ({ b.closeOld client_id with
        clients := pop b.clients client_id ++ [(client_id, i)] }.setPhase i .serving)
    else none
  | .subscribe i filters =>
    if b.phase i = .serving then
      some (b.modifySession i fun s => { s with subscriptions := s.subscriptions ∪ filters })
    else none
  | .unsubscribe i filters =>
    if b.phase i = .serving then
      some (b.modifySession i fun s => { s with
        subscriptions := s.subscriptions.filter fun x => x ∉ filters })
    else none
  | .received i pkt => if b.phase i = .serving then some (b.setPhase i (.publishing pkt)) else none
  | .other i => if b.phase i = .serving then some b else none
  | .route i =>
    match b.phase i with
    | .publishing pkt =>
      if b.lock.isNone then
        some ({ b with
          lock :=
            some ⟨some i, pkt, b.targets (some (b.sessions i).client_id)⟩ }.setPhase i .routing)
      else none
    | _ => none
  | .publish pkt =>
    if b.lock.isNone then some { b with lock := some ⟨none, pkt, b.targets none⟩ } else none
  | .deliver =>
    match b.lock with
    | some ⟨handler, pkt, i :: todo⟩ =>
      let b := if (b.sessions i).wants pkt.topic then b.modifySession i fun s => s.write pkt else b
      some { b with lock := some ⟨handler, pkt, todo⟩ }
    | _ => none
  | .release =>
    match b.lock with
    | some ⟨none, _, []⟩ => some { b with lock := none }
    | some ⟨some i, _, []⟩ =>
      if b.phase i = .routing then some ({ b with lock := none }.setPhase i .handling) else none
    | _ => none
  | .handled i => if b.phase i = .handling then some (b.setPhase i .serving) else none
  | .left i => if b.phase i = .serving then some (b.setPhase i .ending) else none
  | .cleanup i =>
    if b.phase i = .ending ∧ b.lock.isNone then
      some ({ b.close i with clients := pop b.clients (b.sessions i).client_id }.setPhase i .ended)
    else none

/-! ## The newest session -/

/-- The session registered last under the id. -/
def newest (client_id : Str) (xs : List Input) : Option Nat :=
  (xs.filterMap fun
    | .register i id => if id = client_id then some i else none
    | _ => none).getLast?

/-- The newest connection of a client is the one registered last. -/
theorem newest_snoc {client_id : Str} {xs : List Input} {x : Input} :
    newest client_id (xs ++ [x]) = match x with
      | .register i id => if id = client_id then some i else newest client_id xs
      | _ => newest client_id xs := by
  unfold newest
  rw [List.filterMap_append]
  cases x with
  | register i id =>
    by_cases hid : id = client_id
    · simp [hid]
    · simp [hid]
  | _ => simp

/-- A step that does not register the client leaves its newest connection as it was. -/
theorem newest_snoc_of_ne {client_id : Str} {xs : List Input} {x : Input}
    (hx : ∀ i, x ≠ .register i client_id) :
    newest client_id (xs ++ [x]) = newest client_id xs := by
  rw [newest_snoc]
  cases x with
  | register i id =>
    have hid : id ≠ client_id := by
      rintro rfl
      exact hx i rfl
    exact if_neg hid
  | _ => rfl

/-- The newest session of every id is registered as long as it is served. -/
def Current (xs : List Input) (b : MQTTBroker) : Prop :=
  ∀ id i, newest id xs = some i → (b.phase i).live = true → (id, i) ∈ b.clients

/-- What holds in every state of every run. -/
structure Sound (xs : List Input) (b : MQTTBroker) : Prop where
  newest : ∀ id i, (id, i) ∈ b.clients → newest id xs = some i
  known : ∀ id i, Broker.newest id xs = some i →
    (b.sessions i).client_id = id ∧ (b.phase i).accepted = true
  opened : ∀ id i, (id, i) ∈ b.clients → (b.sessions i).isOpen = true
  fresh : ∀ i, (b.phase i).accepted = false → (b.sessions i).isOpen = true
  named : ∀ i id, b.phase i = .registering id → (b.sessions i).client_id = id
  keys : (b.clients.map Prod.fst).Nodup

/-- `pop` takes out the entries of that client and no others. -/
theorem mem_pop {clients : List (Str × Nat)} {client_id : Str} {y : Str × Nat} :
    y ∈ pop clients client_id ↔ y ∈ clients ∧ y.1 ≠ client_id := by
  unfold pop
  rw [List.mem_filter, decide_eq_true_iff]

section Steps

variable {xs : List Input} {b b' : MQTTBroker} {x : Input} {i j : Nat} {id : Str}

/-- What a step other than registering and ending leaves as it is. -/
structure Kept (b b' : MQTTBroker) : Prop where
  clients : b'.clients = b.clients
  id : ∀ j, (b.phase j).accepted = true → (b'.sessions j).client_id = (b.sessions j).client_id
  accepted : ∀ j, (b.phase j).accepted = true → (b'.phase j).accepted = true
  isOpen : ∀ j, (b.phase j).accepted = true ∨ (b'.phase j).accepted = false →
    (b'.sessions j).isOpen = (b.sessions j).isOpen
  fresh : ∀ j, (b'.phase j).accepted = false → (b.phase j).accepted = false
  live : ∀ j, (b'.phase j).live = true → (b.phase j).live = true
  named : ∀ j id, b'.phase j = .registering id → (b'.sessions j).client_id = id ∨
    (b.phase j = .registering id ∧ (b'.sessions j).client_id = (b.sessions j).client_id)

/-- A change of phase of a handler that has registered. -/
theorem kept_setPhase {p : Phase} (hnew : p.accepted = true)
    (hlive : p.live = true → (b.phase i).live = true) : Kept b (b.setPhase i p) := by
  refine ⟨rfl, fun _ _ => rfl, fun j hj => ?_, fun _ _ => rfl, fun j hj => ?_, fun j hj => ?_,
    fun j id hj => ?_⟩ <;> rw [MQTTBroker.setPhase_phase] at *
  · split
    next => exact hnew
    next => exact hj
  · split at hj
    next => rw [hnew] at hj; cases hj
    next => exact hj
  · split at hj
    next h => rw [h]; exact hlive hj
    next => exact hj
  · split at hj
    next => rw [hj] at hnew; cases hnew
    next => exact Or.inr ⟨hj, rfl⟩

/-- A change of one session that keeps its id and its writer. -/
theorem kept_modifySession {f : ClientSession → ClientSession}
    (hid : ∀ s, (f s).client_id = s.client_id) (hopen : ∀ s, (f s).isOpen = s.isOpen) :
    Kept b (b.modifySession i f) := by
  have hsame : ∀ j, ((b.modifySession i f).sessions j).client_id = (b.sessions j).client_id := by
    intro j
    rw [MQTTBroker.modifySession_sessions]
    split
    next h => rw [h]; exact hid _
    next => rfl
  refine ⟨rfl, fun j _ => hsame j, fun _ hj => hj, fun j _ => ?_, fun _ hj => hj, fun _ hj => hj,
    fun j id hj => Or.inr ⟨hj, hsame j⟩⟩
  rw [MQTTBroker.modifySession_sessions]
  split
  next h => rw [h]; exact hopen _
  next => rfl

/-- Two steps that keep the table keep it together. -/
theorem Kept.trans {b₁ b₂ b₃ : MQTTBroker} (h₁ : Kept b₁ b₂) (h₂ : Kept b₂ b₃) :
    Kept b₁ b₃ where
  clients := h₂.clients.trans h₁.clients
  id j hj := (h₂.id j (h₁.accepted j hj)).trans (h₁.id j hj)
  accepted j hj := h₂.accepted j (h₁.accepted j hj)
  isOpen j hj := by
    rcases hj with hj | hj
    · exact (h₂.isOpen j (Or.inl (h₁.accepted j hj))).trans (h₁.isOpen j (Or.inl hj))
    · exact (h₂.isOpen j (Or.inr hj)).trans (h₁.isOpen j (Or.inr (h₂.fresh j hj)))
  fresh j hj := h₁.fresh j (h₂.fresh j hj)
  live j hj := h₁.live j (h₂.live j hj)
  named j id hj := by
    rcases h₂.named j id hj with hid | ⟨hj', hid⟩
    · exact Or.inl hid
    · rcases h₁.named j id hj' with hid' | ⟨hj'', hid'⟩
      · exact Or.inl (hid.trans hid')
      · exact Or.inr ⟨hj'', hid.trans hid'⟩

/-- Taking or releasing the lock keeps the table. -/
theorem kept_lock {r : Option Route} : Kept b { b with lock := r } :=
  ⟨rfl, fun _ _ => rfl, fun _ hj => hj, fun _ _ => rfl, fun _ hj => hj, fun _ hj => hj,
    fun _ _ hj => Or.inr ⟨hj, rfl⟩⟩

/-- A handler that has not registered does not touch what others have. -/
theorem kept_connecting {f : ClientSession → ClientSession} {p : Phase}
    (hp : (b.phase i).accepted = false) (hlive : p.live = false)
    (hopen : p.accepted = false → ∀ s, (f s).isOpen = s.isOpen)
    (hid : ∀ id s, p = .registering id → (f s).client_id = id) :
    Kept b ((b.modifySession i f).setPhase i p) := by
  have hne : ∀ j, (b.phase j).accepted = true → j ≠ i := by
    rintro j hj rfl
    rw [hp] at hj
    cases hj
  refine ⟨rfl, fun j hj => ?_, fun j hj => ?_, fun j hj => ?_, fun j hj => ?_, fun j hj => ?_,
    fun j id hj => ?_⟩ <;>
    simp only [MQTTBroker.setPhase_phase, MQTTBroker.setPhase_sessions,
      MQTTBroker.modifySession_sessions, MQTTBroker.modifySession_phase] at hj ⊢
  · rw [if_neg (hne j hj)]
  · rw [if_neg (hne j hj)]
    exact hj
  · split
    next h =>
      subst h
      rw [if_pos rfl, hp] at hj
      exact hopen (hj.resolve_left (by simp)) _
    next => rfl
  · by_cases h : j = i
    · rw [h]
      exact hp
    · rw [if_neg h] at hj
      exact hj
  · split at hj
    · rw [hlive] at hj
      cases hj
    · exact hj
  · by_cases h : j = i
    · rw [if_pos h] at hj ⊢
      exact Or.inl (hid id _ hj)
    · rw [if_neg h] at hj ⊢
      exact Or.inr ⟨hj, rfl⟩

/-- A packet that is written does not rename the client. -/
theorem write_client_id {s : ClientSession} {pkt : Packet} :
    (s.write pkt).client_id = s.client_id := by
  unfold ClientSession.write
  split <;> rfl

/-- Nor does it close the connection. -/
theorem write_isOpen {s : ClientSession} {pkt : Packet} : (s.write pkt).isOpen = s.isOpen := by
  unfold ClientSession.write
  split <;> rfl

/-- Everything but registering and ending leaves the registry alone. -/
theorem step_kept (hs : step b x = some b') (hreg : ∀ i id, x ≠ .register i id)
    (hclean : ∀ i, x ≠ .cleanup i) : Kept b b' := by
  -- the steps that neither register nor end a connection
  cases x with
  | register i id => exact absurd rfl (hreg i id)
  | cleanup i => exact absurd rfl (hclean i)
  | connected i id =>
    simp only [step] at hs
    split at hs <;> cases hs
    next hp =>
      exact kept_connecting (by rw [hp]; rfl) rfl (fun _ _ => rfl) fun _ _ h => by cases h; rfl
  | refused i =>
    simp only [step] at hs
    split at hs <;> cases hs
    next hp =>
      exact kept_connecting (by rw [hp]; rfl) rfl (fun h => by cases h) fun _ _ h => by cases h
  | subscribe | unsubscribe =>
    simp only [step] at hs
    split at hs <;> cases hs
    exact kept_modifySession (fun _ => rfl) fun _ => rfl
  | received | left =>
    simp only [step] at hs
    split at hs <;> cases hs
    next hp => exact kept_setPhase rfl fun _ => by rw [hp]; rfl
  | handled =>
    simp only [step] at hs
    split at hs <;> cases hs
    next hp => exact kept_setPhase rfl fun _ => by rw [hp]; rfl
  | other =>
    simp only [step] at hs
    split at hs <;> cases hs
    exact kept_lock
  | publish =>
    simp only [step] at hs
    split at hs <;> cases hs
    exact kept_lock
  | route i =>
    simp only [step] at hs
    split at hs
    next pkt hp =>
      split at hs <;> cases hs
      exact kept_lock.trans (kept_setPhase rfl fun _ => by rw [hp]; rfl)
    next => cases hs
  -- writing to one session of the loop
  | deliver =>
    simp only [step] at hs
    split at hs
    next handler pkt i todo hl =>
      cases hs
      refine Kept.trans ?_ kept_lock
      split
      · exact kept_modifySession (fun _ => write_client_id) fun _ => write_isOpen
      · exact kept_lock
    next => cases hs
  | release =>
    simp only [step] at hs
    split at hs
    next => cases hs; exact kept_lock
    next i pkt hl =>
      split at hs <;> cases hs
      next hp => exact kept_lock.trans (kept_setPhase rfl fun _ => by rw [hp]; rfl)
    next => cases hs

/-- A connection that is closed keeps its client. -/
theorem close_client_id : ((b.close i).sessions j).client_id = (b.sessions j).client_id := by
  unfold MQTTBroker.close
  rw [MQTTBroker.modifySession_sessions]
  split
  next h => rw [h]
  next => rfl

/-- The handler of the old connection runs on: closing the socket does not end its phase. -/
theorem closeOld_phase : (b.closeOld id).phase = b.phase := by
  unfold MQTTBroker.closeOld
  split <;> rfl

/-- Every session keeps its client when the old connection is closed. -/
theorem closeOld_client_id :
    ((b.closeOld id).sessions j).client_id = (b.sessions j).client_id := by
  unfold MQTTBroker.closeOld
  split
  · exact close_client_id
  · rfl

/-- What is found in the table is an entry of it. -/
theorem mem_of_lookup {clients : List (Str × Nat)} (h : clients.lookup id = some i) :
    (id, i) ∈ clients := by
  induction clients with
  | nil => cases h
  | cons y ys ih =>
    rw [List.lookup_cons] at h
    split at h
    next hid =>
      rw [beq_iff_eq] at hid
      cases h
      rw [hid]
      exact List.mem_cons_self
    next => exact List.mem_cons_of_mem _ (ih h)

/-- Only the session that the table had for that client may have been closed. -/
theorem closeOld_isOpen : ((b.closeOld id).sessions j).isOpen = (b.sessions j).isOpen ∨
    (id, j) ∈ b.clients := by
  unfold MQTTBroker.closeOld
  split
  next old hl =>
    unfold MQTTBroker.close
    rw [MQTTBroker.modifySession_sessions]
    split
    next h =>
      rw [h]
      exact Or.inr (mem_of_lookup hl)
    next => exact Or.inl rfl
  next => exact Or.inl rfl

/-- Registering puts the session under its id and closes the one that was there. -/
theorem step_register (hs : step b (.register i id) = some b') :
    b.phase i = .registering id ∧ b'.clients = pop b.clients id ++ [(id, i)] ∧
      (∀ j, b'.phase j = if j = i then .serving else b.phase j) ∧
      (∀ j, (b'.sessions j).client_id = (b.sessions j).client_id) ∧
      (∀ j, (b'.sessions j).isOpen = (b.sessions j).isOpen ∨ (id, j) ∈ b.clients) := by
  simp only [step] at hs
  split at hs <;> cases hs
  next hg =>
    refine ⟨hg.1, rfl, fun j => ?_, fun j => ?_, fun j => ?_⟩
    · rw [MQTTBroker.setPhase_phase]
      show (if j = i then _ else (b.closeOld id).phase j) = _
      rw [closeOld_phase]
    · exact closeOld_client_id
    · exact closeOld_isOpen

/-- What the `finally` block does: it takes the client's entry out, whichever connection that entry
names. -/
theorem step_cleanup (hs : step b (.cleanup i) = some b') :
    b.phase i = .ending ∧ b'.clients = pop b.clients (b.sessions i).client_id ∧
      (∀ j, b'.phase j = if j = i then .ended else b.phase j) ∧
      (∀ j, (b'.sessions j).client_id = (b.sessions j).client_id) ∧
      (∀ j, j ≠ i → b'.sessions j = b.sessions j) := by
  simp only [step] at hs
  split at hs <;> cases hs
  next hg =>
    refine ⟨hg.1, rfl, fun j => MQTTBroker.setPhase_phase, fun j => ?_, fun j hj => ?_⟩
    · exact close_client_id
    · show (b.close i).sessions j = _
      unfold MQTTBroker.close
      rw [MQTTBroker.modifySession_sessions, if_neg hj]

/-- A registered session has its id and has been accepted. -/
theorem Sound.of_mem (hb : Sound xs b) (hj : (id, j) ∈ b.clients) :
    (b.sessions j).client_id = id ∧ (b.phase j).accepted = true :=
  hb.known id j (hb.newest id j hj)

/-- A registration makes the new connection the newest one of its client and enters it in the table.
-/
theorem Sound.step_register (hb : Sound xs b) (hs : step b (.register i id) = some b') :
    Sound (xs ++ [.register i id]) b' := by
  obtain ⟨hp, hclients, hphase, hid, hopen⟩ := Broker.step_register hs
  have hnot : (b.phase i).accepted = false := by
    rw [hp]
    rfl
  have hmem : ∀ id' j, (id', j) ∈ b'.clients ↔
      ((id', j) ∈ b.clients ∧ id' ≠ id) ∨ (id' = id ∧ j = i) := by
    intro id' j
    rw [hclients, List.mem_append, mem_pop, List.mem_singleton, Prod.mk.injEq]
  have hnew : ∀ id', Broker.newest id' (xs ++ [.register i id]) =
      if id = id' then some i else Broker.newest id' xs := fun id' => newest_snoc
  have hopen' : ∀ j, (∀ id', (id', j) ∈ b.clients → id' ≠ id) →
      (b'.sessions j).isOpen = (b.sessions j).isOpen := by
    intro j hj
    rcases hopen j with h | h
    · exact h
    · exact absurd rfl (hj id h)
  -- the parts of the invariant in their order, each for the new connection and for the others
  refine ⟨fun id' j hj => ?_, fun id' j hj => ?_, fun id' j hj => ?_, fun j hj => ?_,
    fun j id' hj => ?_, ?_⟩
  · rw [hnew]
    rcases (hmem id' j).mp hj with ⟨hj, hne⟩ | ⟨rfl, rfl⟩
    · rw [if_neg fun h => hne h.symm]
      exact hb.newest id' j hj
    · exact if_pos rfl
  · rw [hnew] at hj
    rw [hid, hphase]
    split at hj
    next h =>
      cases hj
      rw [if_pos rfl, ← h]
      exact ⟨hb.named i id hp, rfl⟩
    next =>
      obtain ⟨hid', hacc⟩ := hb.known id' j hj
      have hji : j ≠ i := by
        rintro rfl
        rw [hnot] at hacc
        cases hacc
      rw [if_neg hji]
      exact ⟨hid', hacc⟩
  · rcases (hmem id' j).mp hj with ⟨hj, hne⟩ | ⟨rfl, rfl⟩
    · rw [hopen' j fun id'' hj'' => ?_]
      · exact hb.opened id' j hj
      · rw [← (hb.of_mem hj'').1, (hb.of_mem hj).1]
        exact hne
    · rw [hopen' j fun id'' hj'' => ?_]
      · exact hb.fresh j hnot
      · rw [(hb.of_mem hj'').2] at hnot
        cases hnot
  · rw [hphase] at hj
    split at hj
    next => cases hj
    next =>
      rw [hopen' j fun id'' hj'' => ?_]
      · exact hb.fresh j hj
      · rw [(hb.of_mem hj'').2] at hj
        cases hj
  · rw [hphase] at hj
    split at hj
    next => cases hj
    next =>
      rw [hid]
      exact hb.named j id' hj
  · rw [hclients, List.map_append, List.map_singleton]
    refine List.nodup_append.mpr ⟨(List.filter_sublist.map _).nodup hb.keys,
      List.nodup_singleton _, ?_⟩
    intro k hk k' hk'
    obtain ⟨y, hy, rfl⟩ := List.mem_map.mp hk
    rw [List.mem_singleton.mp hk']
    exact (mem_pop.mp hy).2

/-- The end of a connection takes entries out and adds none, so those that are left are still right.
-/
theorem Sound.step_cleanup (hb : Sound xs b) (hs : step b (.cleanup i) = some b') :
    Sound (xs ++ [.cleanup i]) b' := by
  obtain ⟨hp, hclients, hphase, hid, hsame⟩ := Broker.step_cleanup hs
  -- an end makes no connection newest, and so nothing that was newest changes
  have hnew : ∀ id', Broker.newest id' (xs ++ [.cleanup i]) = Broker.newest id' xs :=
    fun id' => newest_snoc
  have hmem : ∀ id' j, (id', j) ∈ b'.clients → (id', j) ∈ b.clients ∧ j ≠ i := by
    intro id' j hj
    rw [hclients] at hj
    obtain ⟨hold, hne⟩ := mem_pop.mp hj
    refine ⟨hold, ?_⟩
    rintro rfl
    exact hne (hb.of_mem hold).1.symm
  refine ⟨fun id' j hj => ?_, fun id' j hj => ?_, fun id' j hj => ?_, fun j hj => ?_,
    fun j id' hj => ?_, ?_⟩
  · rw [hnew]
    exact hb.newest id' j (hmem id' j hj).1
  · rw [hnew] at hj
    obtain ⟨hid', hacc⟩ := hb.known id' j hj
    rw [hid, hphase]
    refine ⟨hid', ?_⟩
    split
    · rfl
    · exact hacc
  · obtain ⟨hj, hne⟩ := hmem id' j hj
    rw [hsame j hne]
    exact hb.opened id' j hj
  · rw [hphase] at hj
    split at hj
    next => cases hj
    next hne =>
      rw [hsame j hne]
      exact hb.fresh j hj
  · rw [hphase] at hj
    split at hj
    next => cases hj
    next =>
      rw [hid]
      exact hb.named j id' hj
  · rw [hclients]
    exact (List.filter_sublist.map _).nodup hb.keys

/-- A step that keeps the table and registers nobody keeps the invariant. -/
theorem Sound.step_kept (hb : Sound xs b) (hk : Kept b b') (hreg : ∀ i id, x ≠ .register i id) :
    Sound (xs ++ [x]) b' := by
  have hnew : ∀ id', Broker.newest id' (xs ++ [x]) = Broker.newest id' xs :=
    fun id' => newest_snoc_of_ne fun i => hreg i id'
  refine ⟨fun id' j hj => ?_, fun id' j hj => ?_, fun id' j hj => ?_, fun j hj => ?_,
    fun j id' hj => ?_, ?_⟩
  · rw [hk.clients] at hj
    rw [hnew]
    exact hb.newest id' j hj
  · rw [hnew] at hj
    obtain ⟨hid', hacc⟩ := hb.known id' j hj
    exact ⟨(hk.id j hacc).trans hid', hk.accepted j hacc⟩
  · rw [hk.clients] at hj
    rw [hk.isOpen j (Or.inl (hb.of_mem hj).2)]
    exact hb.opened id' j hj
  · rw [hk.isOpen j (Or.inr hj)]
    exact hb.fresh j (hk.fresh j hj)
  · rcases hk.named j id' hj with hid | ⟨hj', hid⟩
    · exact hid
    · rw [hid]
      exact hb.named j id' hj'
  · rw [hk.clients]
    exact hb.keys

/-- One step of the broker, of any kind. -/
theorem Sound.step (hb : Sound xs b) (hs : step b x = some b') : Sound (xs ++ [x]) b' := by
  by_cases hreg : ∃ i id, x = .register i id
  · obtain ⟨i, id, rfl⟩ := hreg
    exact hb.step_register hs
  by_cases hclean : ∃ i, x = .cleanup i
  · obtain ⟨i, rfl⟩ := hclean
    exact hb.step_cleanup hs
  have hreg' : ∀ i id, x ≠ .register i id := fun i id h => hreg ⟨i, id, h⟩
  exact hb.step_kept (Broker.step_kept hs hreg' fun i h => hclean ⟨i, h⟩) hreg'

/-- The table is empty at the start. -/
theorem sound_start : Sound [] start where
  newest _ _ h := by cases h
  known _ _ h := by cases h
  opened _ _ h := by cases h
  fresh _ _ := rfl
  named _ _ h := by cases h
  keys := List.nodup_nil

/-- From one step to a whole run, by induction on its length. -/
theorem sound_run (hr : run step start xs = some b) : Sound xs b :=
  run_invariant sound_start (fun _ _ _ _ _ hb hs => hb.step hs) hr

/-! ## When the newest session stays registered -/

/-- A handler that ends does not find, under its `client_id`, a session that is still
served. -/
def Undisturbed (b : MQTTBroker) : Input → Prop
  | .cleanup j => ∀ i, ((b.sessions j).client_id, i) ∈ b.clients → (b.phase i).live = false
  | _ => True

/-- While no end of an old connection takes out the entry of a newer one, the table keeps the newest
live connection of each client. -/
theorem Current.step (hb : Sound xs b) (hc : Current xs b) (hs : step b x = some b')
    (hx : Undisturbed b x) : Current (xs ++ [x]) b' := by
  intro id i hnew hlive
  -- a registration makes its own connection the newest one
  by_cases hreg : ∃ j id', x = .register j id'
  · obtain ⟨j, id', rfl⟩ := hreg
    obtain ⟨hp, hclients, hphase, -, -⟩ := Broker.step_register hs
    rw [newest_snoc] at hnew
    rw [hclients, List.mem_append, mem_pop, List.mem_singleton, Prod.mk.injEq]
    by_cases hid : id' = id
    · simp only [hid, if_true, Option.some.injEq] at hnew
      exact Or.inr ⟨hid.symm, hnew.symm⟩
    · simp only [hid, if_false] at hnew
      have hij : i ≠ j := by
        rintro rfl
        have hacc := (hb.known id i hnew).2
        rw [hp] at hacc
        cases hacc
      rw [hphase, if_neg hij] at hlive
      exact Or.inl ⟨hc id i hnew hlive, fun h => hid h.symm⟩
  have hreg' : ∀ j id', x ≠ .register j id' := fun j id' h => hreg ⟨j, id', h⟩
  rw [newest_snoc_of_ne fun j => hreg' j id] at hnew
  -- an end takes the entry out only if it is its own, by the condition
  by_cases hclean : ∃ j, x = .cleanup j
  · obtain ⟨j, rfl⟩ := hclean
    obtain ⟨-, hclients, hphase, -, -⟩ := Broker.step_cleanup hs
    rw [hphase] at hlive
    split at hlive
    next => cases hlive
    next =>
      have hmem := hc id i hnew hlive
      rw [hclients, mem_pop]
      refine ⟨hmem, ?_⟩
      rintro rfl
      rw [hx i hmem] at hlive
      cases hlive
  · have hk := Broker.step_kept hs hreg' fun j h => hclean ⟨j, h⟩
    rw [hk.clients]
    exact hc id i hnew (hk.live i hlive)

/-- And a handler that does takes it out. -/
theorem Current.undisturbed (hb : Sound xs b) (hs : Broker.step b x = some b')
    (hc : Current (xs ++ [x]) b') : Undisturbed b x := by
  cases x with
  | cleanup j =>
    intro i hmem
    obtain ⟨hp, hclients, hphase, -, -⟩ := Broker.step_cleanup hs
    rw [Bool.eq_false_iff]
    intro hlive
    have hij : i ≠ j := by
      rintro rfl
      rw [hp] at hlive
      cases hlive
    have hin := hc (b.sessions j).client_id i
      ((newest_snoc_of_ne (by simp)).trans (hb.newest _ i hmem))
      (by rw [hphase, if_neg hij]; exact hlive)
    rw [hclients] at hin
    exact (mem_pop.mp hin).2 rfl
  | _ => trivial

end Steps

/-! ## What is published reaches it -/

/-- A publisher gets the lock for a packet; `skip` is the id it leaves out. -/
def Takes (b : MQTTBroker) (x : Input) (pkt : Packet) (skip : Option Str) : Prop :=
  (x = .publish pkt ∧ skip = none) ∨
    ∃ j, x = .route j ∧ b.phase j = .publishing pkt ∧ skip = some (b.sessions j).client_id

/-- Whatever is published from here on, when the publisher has come to the end of its
loop, session `i` of the id has got it, once, if it wanted it all the time. -/
def Reached (b : MQTTBroker) (id : Str) (i : Nat) : Prop :=
  ∀ x pkt skip b₁ ys b₂, Takes b x pkt skip → skip ≠ some id → step b x = some b₁ →
    run step b₁ ys = some b₂ → .release ∉ ys → (b₂.lock.map Route.todo = some []) →
    (∀ zs b', zs <+: ys → run step b₁ zs = some b' →
      (b'.sessions i).wants pkt.topic = true) →
    (b₂.sessions i).received = (b.sessions i).received ++ [pkt]

/-- The newest session of every id is registered, and reached, as long as it is served. -/
def Served (xs : List Input) (b : MQTTBroker) : Prop :=
  ∀ id i, newest id xs = some i → (b.phase i).live = true → (id, i) ∈ b.clients ∧
    Reached b id i

section Publishing

variable {xs : List Input} {b b' : MQTTBroker} {x : Input} {i : Nat} {id : Str} {r : Route}
  {pkt : Packet} {skip : Option Str}

/-- A change that leaves what one session has received leaves it for all of them. -/
theorem received_modifySession {f : ClientSession → ClientSession}
    (hf : ∀ s, (f s).received = s.received) {j : Nat} :
    ((b.modifySession i f).sessions j).received = (b.sessions j).received := by
  rw [MQTTBroker.modifySession_sessions]
  split
  next h => rw [h]; exact hf _
  next => rfl

/-- While a publisher has the lock, nobody else publishes and the registry stays. -/
theorem step_locked (hl : b.lock = some r) (hs : step b x = some b') (hx : x ≠ .release) :
    (∃ j todo, r.todo = j :: todo ∧ b'.lock = some { r with todo := todo } ∧
      b'.phase = b.phase ∧
      b'.sessions = (if (b.sessions j).wants r.pkt.topic then
        b.modifySession j fun s => s.write r.pkt else b).sessions) ∨
    (b'.lock = some r ∧ Kept b b' ∧
      ∀ j, (b'.sessions j).received = (b.sessions j).received) := by
  have hkeep : (∀ i id, x ≠ .register i id) → (∀ i, x ≠ .cleanup i) → Kept b b' :=
    step_kept hs
  -- while the lock is held, only the loop of its holder writes to sessions
  cases x with
  | release => exact absurd rfl hx
  | deliver =>
    simp only [step, hl] at hs
    obtain ⟨handler, pkt, todo⟩ := r
    cases todo with
    | nil => cases hs
    | cons j todo =>
      cases hs
      refine Or.inl ⟨j, todo, rfl, rfl, ?_, rfl⟩
      dsimp only
      split <;> rfl
  | register | cleanup | publish =>
    simp only [step, hl] at hs
    split at hs <;> simp_all
  -- another publisher would have to take the lock
  | route i =>
    simp only [step, hl] at hs
    split at hs <;> simp_all
  | connected | refused =>
    refine Or.inr ⟨?_, hkeep (by simp) (by simp), fun j => ?_⟩
    · simp only [step] at hs
      split at hs <;> cases hs
      exact hl
    · simp only [step] at hs
      split at hs <;> cases hs
      rw [MQTTBroker.setPhase_sessions]
      refine received_modifySession ?_
      exact fun _ => rfl
  | subscribe | unsubscribe =>
    refine Or.inr ⟨?_, hkeep (by simp) (by simp), fun j => ?_⟩
    · simp only [step] at hs
      split at hs <;> cases hs
      exact hl
    · simp only [step] at hs
      split at hs <;> cases hs
      refine received_modifySession ?_
      exact fun _ => rfl
  | received | other | handled | left =>
    refine Or.inr ⟨?_, hkeep (by simp) (by simp), fun j => ?_⟩ <;>
    · simp only [step] at hs
      split at hs <;> cases hs
      first
        | exact hl
        | rfl

/-- What a publisher in its loop has done for session `i`: it comes to it later, or it
has written to it, once. -/
structure InLoop (pkt : Packet) (i : Nat) (old : List Packet) (b : MQTTBroker) : Prop where
  accepted : (b.phase i).accepted = true
  isOpen : (b.sessions i).isOpen = true
  loop : ∃ r, b.lock = some r ∧ r.pkt = pkt ∧ r.todo.Nodup ∧
    ((i ∈ r.todo ∧ (b.sessions i).received = old) ∨
      (i ∉ r.todo ∧ (b.sessions i).received = old ++ [pkt]))

/-- Within the loop of `_route_publish` a session that wants the topic is still to be written to, or
has got the packet. -/
theorem InLoop.step {old : List Packet} (hb : InLoop pkt i old b) (hs : step b x = some b')
    (hx : x ≠ .release) (hw : (b.sessions i).wants pkt.topic = true) : InLoop pkt i old b' := by
  obtain ⟨r, hl, rfl, hnodup, hi⟩ := hb.loop
  rcases step_locked hl hs hx with ⟨j, todo, htodo, hl', hphase, hsess⟩ | ⟨hl', hk, hrec⟩
  · rw [htodo] at hnodup hi
    obtain ⟨hj, hnodup'⟩ := List.nodup_cons.mp hnodup
    -- the session whose turn it is
    by_cases hij : i = j
    · subst hij
      have hsess' : b'.sessions i = (b.sessions i).write r.pkt := by
        rw [hsess, if_pos hw, MQTTBroker.modifySession_sessions, if_pos rfl]
      have hold : (b.sessions i).received = old := by
        rcases hi with ⟨-, h⟩ | ⟨h, -⟩
        · exact h
        · exact absurd List.mem_cons_self h
      refine ⟨by rw [hphase]; exact hb.accepted, ?_, _, hl', rfl, hnodup', Or.inr ⟨hj, ?_⟩⟩
      · rw [hsess', write_isOpen]
        exact hb.isOpen
      · rw [hsess']
        unfold ClientSession.write
        rw [if_pos hb.isOpen, ← hold]
    · have hsess' : b'.sessions i = b.sessions i := by
        rw [hsess]
        split
        · rw [MQTTBroker.modifySession_sessions, if_neg hij]
        · rfl
      refine ⟨by rw [hphase]; exact hb.accepted, by rw [hsess']; exact hb.isOpen, _, hl', rfl,
        hnodup', ?_⟩
      rw [hsess']
      rcases hi with ⟨hmem, h⟩ | ⟨hmem, h⟩
      · exact Or.inl ⟨(List.mem_cons.mp hmem).resolve_left hij, h⟩
      · exact Or.inr ⟨fun hin => hmem (List.mem_cons_of_mem _ hin), h⟩
  · refine ⟨hk.accepted i hb.accepted, ?_, r, hl', rfl, hnodup, ?_⟩
    · rw [hk.isOpen i (Or.inl hb.accepted)]
      exact hb.isOpen
    · rw [hrec]
      exact hi

/-- Through the whole loop. -/
theorem InLoop.run {old : List Packet} : ∀ {ys : List Input} {b b' : MQTTBroker},
    InLoop pkt i old b → run Broker.step b ys = some b' → .release ∉ ys →
    (∀ zs b', zs <+: ys → Steps.run Broker.step b zs = some b' →
      (b'.sessions i).wants pkt.topic = true) → InLoop pkt i old b'
  | [], _, _, hb, hr, _, _ => by
    cases hr
    exact hb
  | y :: ys, b, b', hb, hr, hx, hw => by
    obtain ⟨b₁, hs, hr'⟩ := Option.bind_eq_some_iff.mp hr
    rw [List.mem_cons, not_or] at hx
    have hb₁ := hb.step hs (fun h => hx.1 h.symm) (hw [] b List.nil_prefix rfl)
    refine hb₁.run hr' hx.2 fun zs b₂ hzs hr₂ => ?_
    refine hw (y :: zs) b₂ ?_ ?_
    · exact List.cons_prefix_cons.mpr ⟨rfl, hzs⟩
    · show (Broker.step b y).bind _ = _
      rw [hs]
      exact hr₂

/-- No two clients share a connection. -/
theorem nodup_values (hb : Sound xs b) : (b.clients.map Prod.snd).Nodup := by
  refine (List.nodup_map_iff_inj_on ?_).mpr ?_
  · exact List.Nodup.of_map _ hb.keys
  · intro y hy y' hy' hsnd
    have hid : y.1 = y'.1 := by
      rw [← (hb.of_mem hy).1, ← (hb.of_mem hy').1]
      rw [show y.2 = y'.2 from hsnd]
    exact Prod.ext hid hsnd

/-- A registered session is in the loop of every publisher but its own. -/
theorem Sound.inLoop (hb : Sound xs b) (hmem : (id, i) ∈ b.clients) (ht : Takes b x pkt skip)
    (hskip : skip ≠ some id) (hs : Broker.step b x = some b') :
    InLoop pkt i (b.sessions i).received b' := by
  obtain ⟨-, hacc⟩ := hb.of_mem hmem
  have hopen := hb.opened id i hmem
  rcases ht with ⟨rfl, rfl⟩ | ⟨j, rfl, hp, rfl⟩
  · simp only [Broker.step] at hs
    split at hs <;> cases hs
    refine ⟨hacc, hopen, _, rfl, rfl, nodup_values hb, Or.inl ⟨?_, rfl⟩⟩
    exact List.mem_map.mpr ⟨_, hmem, rfl⟩
  · simp only [Broker.step, hp] at hs
    split at hs <;> cases hs
    refine ⟨?_, hopen, _, rfl, rfl, ?_, Or.inl ⟨?_, rfl⟩⟩
    · rw [MQTTBroker.setPhase_phase]
      split
      · rfl
      · exact hacc
    · exact (List.filter_sublist.map _).nodup (nodup_values hb)
    · refine List.mem_map.mpr ⟨(id, i), mem_pop.mpr ⟨hmem, ?_⟩, rfl⟩
      exact fun h => hskip (by rw [← h])

/-- An entry of the table stands for a connection that has registered under that name. -/
theorem Sound.reached (hb : Sound xs b) (hmem : (id, i) ∈ b.clients) : Reached b id i := by
  intro x pkt skip b₁ ys b₂ ht hskip hs hr hrel hend hw
  obtain ⟨-, -, r, hl, -, -, hi⟩ := (hb.inLoop hmem ht hskip hs).run hr hrel hw
  rw [hl] at hend
  have htodo : r.todo = [] := by simpa using hend
  rw [htodo] at hi
  rcases hi with ⟨h, -⟩ | ⟨-, h⟩
  · cases h
  · exact h

end Publishing

/-- In every run: the newest session of every `client_id` is registered, and reached by
what is published to it, as long as it is served, in every state of the run, exactly
when no handler's last step finds the entry of a session that is still served. -/
theorem served_iff (xs : List Input) :
    (∀ zs b, zs <+: xs → run step start zs = some b → Served zs b) ↔
      ∀ zs x b, zs ++ [x] <+: xs → run step start zs = some b → (step b x).isSome = true →
        Undisturbed b x := by
  constructor
  · intro hserved zs x b hzs hr hsome
    obtain ⟨b', hs⟩ := Option.isSome_iff_exists.mp hsome
    have hc : Current (zs ++ [x]) b' := fun id i hnew hlive =>
      (hserved (zs ++ [x]) b' hzs (run_snoc.mpr ⟨b, hr, hs⟩) id i hnew hlive).1
    exact hc.undisturbed (sound_run hr) hs
  · intro hund zs b hzs hr
    have hc : zs <+: xs → Current zs b := by
      refine run_invariant (I := fun zs b => zs <+: xs → Current zs b) ?_ ?_ hr
      · intro _ id i hnew
        cases hnew
      · intro ys b₁ x b₂ hr₁ ih hs hys
        have hpre : ys <+: xs := (List.prefix_append ys [x]).trans hys
        exact (ih hpre).step (sound_run hr₁) hs
          (hund ys x b₁ hys hr₁ (by rw [hs]; rfl))
    intro id i hnew hlive
    have hmem := hc hzs id i hnew hlive
    exact ⟨hmem, (sound_run hr).reached hmem⟩

/-- The client comes back, then the handler of its old connection ends. -/
def reconnect : List Input :=
  [.connected 0 ['w'], .register 0 ['w'], .connected 1 ['w'], .register 1 ['w'], .left 0,
    .cleanup 0]

/-- The sample run ends with a live newest connection that is not in the table. -/
theorem newest_unregistered :
    ∃ b, run step start reconnect = some b ∧ newest ['w'] reconnect = some 1 ∧
      (b.phase 1).live = true ∧ b.clients = [] :=
  ⟨_, rfl, rfl, rfl, rfl⟩

end TreeMiner.Broker
