import Mathlib.Data.Finmap
import Mathlib.Logic.Relation
import Ydfs.Text.Bytes
import Ydfs.Text.Feed
import Ydfs.Wubi.MetalinkParts

/-!
# The connections to the other peers

An `Encoder` has a connection to each of the other peers.  A connection begins with a handshake, in which
both sides give the torrent and their ids, and then carries messages, each behind its length.  What comes
in is read as it comes, and it does not matter how it is cut (`data_came_in_append`); and there are never
two connections with one id (`ids_apart`).
-/

namespace Ydfs.BitTorrent

open Wubi.Sax (Text)

/-! ### The model of the source -/

def protocol_name : Text := "BitTorrent protocol".toList

/-- `toint`, of a string that is not empty -/
def toint (s : Text) : ℕ := s.foldl (fun n c => n * 256 + c.toNat) 0

/-- `tobinary`, of a number below `2 ^ 32` -/
def tobinary (i : ℕ) : Text :=
  [Char.ofNat (i >>> 24), Char.ofNat (i >>> 16 &&& 0xFF), Char.ofNat (i >>> 8 &&& 0xFF),
    Char.ofNat (i &&& 0xFF)]

/-- `next_func` -/
inductive NextFunc where
  | read_header_len
  | read_header
  | read_reserved
  | read_download_id
  | read_peer_id
  | read_len
  | read_message
  | read_dead
deriving DecidableEq

/-- A `Connection` that is not closed; `written` is what has been written to its socket. -/
structure Connection where
  id : Option Text
  locally_initiated : Bool
  complete : Bool
  buffer : Text
  next_len : ℕ
  next_func : NextFunc
  written : Text

/-- A call that the connecter makes of a connection. -/
inductive ConnecterCall where
  | send_message (c : ℕ) (message : Text)
  | close (c : ℕ)

/-- What the connecter does when it is called; a call may raise an exception after others that it
makes. -/
structure Connecter (κ : Type) where
  connection_made : κ → ℕ → κ × List (ℕ × Text)
  connection_lost : κ → ℕ → κ × List (ℕ × Text)
  connection_flushed : κ → ℕ → κ × List (ℕ × Text)
  got_message : κ → ℕ → Text → κ × List ConnecterCall × Bool

/-- An `Encoder` with its connections, which are those that are not closed. -/
structure Encoder (κ : Type) where
  connecter : κ
  my_id : Text
  download_id : Text
  max_len : ℕ
  max_initiate : ℕ
  everinc : Bool
  connections : Finmap fun _ : ℕ => Connection
  spares : List Text

/-- What a connecter is told about a connection by one of its functions. -/
inductive Event where
  | made
  | got (message : Text)

namespace Connection

def write (c : Connection) (s : Text) : Connection := { c with written := c.written ++ s }

/-- `send_message` -/
def send_message (c : Connection) (message : Text) : Connection :=
  c.write (tobinary message.length ++ message)

/-- The header, up to the id of the torrent -/
def hello (download_id : Text) : Text :=
  Char.ofNat protocol_name.length :: protocol_name ++ List.replicate 8 (Char.ofNat 0) ++ download_id

/-- `Connection.__init__` -/
def init (download_id my_id : Text) (id : Option Text) (is_local : Bool) : Connection where
  id := id
  locally_initiated := is_local
  complete := false
  buffer := []
  next_len := 1
  next_func := .read_header_len
  written := if is_local then hello download_id ++ (if id.isSome then my_id else []) else []

/-- What `next_len` and `next_func` are next. -/
def next (c : Connection) (next_len : ℕ) (next_func : NextFunc) : Connection :=
  { c with next_len := next_len, next_func := next_func }

/-- `self.id = s` -/
def setId (c : Connection) (s : Text) : Connection := { c with id := some s }

/-- `self.complete = True` -/
def setComplete (c : Connection) : Connection := { c with complete := true }

end Connection

namespace Encoder

variable {κ : Type}

/-- Whether a connection has this id. -/
def hasId (e : Encoder κ) (s : Text) : Bool :=
  decide (∃ k ∈ e.connections.keys, ((e.connections.lookup k).bind (·.id)) = some s)

/-- `read_peer_id`, up to the call of the connecter -/
def read_peer_id (e : Encoder κ) (c : Connection) (s : Text) : Option (Encoder κ × Connection) :=
  if c.id = none ∨ c.id = some [] then
    if s = e.my_id then none
    else if s ≠ [] ∧ e.hasId s then none
    else if c.locally_initiated then some (e, (c.setId s).write e.my_id)
    else some ({ e with everinc := true }, c.setId s)
  else if c.id = some s then some (e, c)
  else none

/-- `next_func`, up to the call of the connecter; `none` is `None` in the source. -/
def next_func (e : Encoder κ) (c : Connection) (s : Text) :
    Option (Encoder κ × Connection × Option Event) :=
  match c.next_func with
  | .read_header_len =>
    if toint s ≠ protocol_name.length then none
    else some (e, c.next protocol_name.length .read_header, none)
  | .read_header => if s ≠ protocol_name then none else some (e, c.next 8 .read_reserved, none)
  | .read_reserved => some (e, c.next 20 .read_download_id, none)
  | .read_download_id =>
    if s ≠ e.download_id then none
    else
      let c := if c.locally_initiated then c else c.write (Connection.hello e.download_id ++ e.my_id)
      some (e, c.next 20 .read_peer_id, none)
  | .read_peer_id =>
    (e.read_peer_id c s).map fun r => (r.1, r.2.setComplete.next 4 .read_len, some .made)
  | .read_len =>
    if e.max_len < toint s then none else some (e, c.next (toint s) .read_message, none)
  | .read_message => some (e, c.next 4 .read_len, if s ≠ [] then some (.got s) else none)
  | .read_dead => none

/-- A connection, changed -/
def put (e : Encoder κ) (h : ℕ) (c : Connection) : Encoder κ :=
  { e with connections := e.connections.insert h c }

/-- `send_message` of a connection; on a socket that is closed it does nothing here. -/
def send_message (e : Encoder κ) (h : ℕ) (message : Text) : Encoder κ :=
  match e.connections.lookup h with
  | none => e
  | some c => e.put h (c.send_message message)

/-- The answer of a function of the connecter that only sends messages -/
def told (e : Encoder κ) (r : κ × List (ℕ × Text)) : Encoder κ :=
  r.2.foldl (fun e m => e.send_message m.1 m.2) { e with connecter := r.1 }

variable (connecter : Connecter κ)

/-- `close` of a connection, with `sever` -/
def close (e : Encoder κ) (h : ℕ) : Encoder κ :=
  match e.connections.lookup h with
  | none => e
  | some c =>
    let e := { e with connections := e.connections.erase h }
    if c.complete then e.told (connecter.connection_lost e.connecter h) else e

def call (e : Encoder κ) : ConnecterCall → Encoder κ
  | .send_message h message => e.send_message h message
  | .close h => e.close connecter h

/-- The call of the connecter; the answer says whether it returns. -/
def tell (e : Encoder κ) (h : ℕ) : Option Event → Encoder κ × Bool
  | none => (e, true)
  | some .made => (e.told (connecter.connection_made e.connecter h), true)
  | some (.got message) =>
    let r := connecter.got_message e.connecter h message
    let e := r.2.1.foldl (call connecter) { e with connecter := r.1 }
    if r.2.2 then
      (match e.connections.lookup h with
        | none => e
        | some c => e.put h (c.next 1 .read_dead), false)
    else (e, true)

/-- `self.next_len - self.buffer.tell()` -/
def need (h : ℕ) (e : Encoder κ) : Option ℕ :=
  (e.connections.lookup h).map fun c => c.next_len - c.buffer.length

/-- `self.buffer.write` -/
def store (h : ℕ) (e : Encoder κ) (x : Text) : Encoder κ :=
  match e.connections.lookup h with
  | none => e
  | some c => e.put h { c with buffer := c.buffer ++ x }

/-- One turn of the loop of `Connection.data_came_in` -/
def act (h : ℕ) (e : Encoder κ) : Encoder κ × Bool :=
  match e.connections.lookup h with
  | none => (e, true)
  | some c =>
    match e.next_func c c.buffer with
    | none => (e.close connecter h, true)
    | some (e, c, event) => (e.put h { c with buffer := [] }).tell connecter h event

/-- A connection as a reader of what comes in. -/
def reader (h : ℕ) : Feed.Reader Char (Encoder κ) where
  need := need h
  store := store h
  act := act connecter h
  stages := 2

/-- `data_came_in`; the answer says whether it returns. -/
def data_came_in (e : Encoder κ) (h : ℕ) (s : Text) : Encoder κ × Bool := (reader connecter h).feed e s

/-- `start_connection`; `socket` is the new one, none where there is a `socketerror`. -/
def start_connection (e : Encoder κ) (dns : Text) (id : Option Text) (socket : Option ℕ) : Encoder κ :=
  if id ≠ none ∧ id ≠ some [] ∧ (id = some e.my_id ∨ ∃ s ∈ id, e.hasId s) then e
  else if e.max_initiate ≤ e.connections.keys.card then
    if e.spares.length < e.max_initiate ∧ dns ∉ e.spares then { e with spares := e.spares ++ [dns] }
    else e
  else
    match socket with
    | none => e
    | some h => e.put h (.init e.download_id e.my_id id true)

/-- `external_connection_made` -/
def external_connection_made (e : Encoder κ) (h : ℕ) : Encoder κ :=
  e.put h (.init e.download_id e.my_id none false)

/-- The loop of `connection_lost`; each turn takes one of the spares. -/
def refill (socket : ℕ → Option ℕ) : ℕ → Encoder κ → Encoder κ
  | 0, e => e
  | n + 1, e =>
    match e.spares.getLast? with
    | none => e
    | some dns =>
      if e.connections.keys.card < e.max_initiate then
        refill socket n ({ e with spares := e.spares.dropLast }.start_connection dns none (socket n))
      else e

/-- `connection_lost`; `socket n` is the one for the spare that has `n` before it. -/
def connection_lost (e : Encoder κ) (h : ℕ) (socket : ℕ → Option ℕ) : Encoder κ :=
  refill socket (e.close connecter h).spares.length (e.close connecter h)

/-- `connection_flushed` -/
def connection_flushed (e : Encoder κ) (h : ℕ) : Encoder κ :=
  match e.connections.lookup h with
  | none => e
  | some c => if c.complete then e.told (connecter.connection_flushed e.connecter h) else e

/-- `send_keepalives`, in the order of the dictionary -/
def send_keepalives (e : Encoder κ) (order : List ℕ) : Encoder κ :=
  order.foldl (fun e h => if (e.connections.lookup h).any (·.complete) then e.send_message h [] else e) e

/-! ### What the connecter may do -/

section Fewer

variable {connecter} {e e' e'' : Encoder κ} {c c' : Connection} {h k : ℕ}

theorem lookup_put : (e.put h c).connections.lookup h = some c := Finmap.lookup_insert _

theorem lookup_put_ne (ne : k ≠ h) : (e.put h c).connections.lookup k = e.connections.lookup k :=
  Finmap.lookup_insert_of_ne _ ne

theorem put_same (there : e.connections.lookup h = some c) : e.put h c = e := by
  have same : e.connections.insert h c = e.connections := by
    refine Finmap.ext_lookup fun k => ?_
    by_cases own : k = h
    · rw [own, Finmap.lookup_insert, there]
    · exact Finmap.lookup_insert_of_ne _ own
  rw [put, same]

theorem put_put (e : Encoder κ) (h : ℕ) (c c' : Connection) : (e.put h c).put h c' = e.put h c' := by
  rw [put, put, put, Finmap.insert_insert]

/-- Connections may have been closed, and the others are the same but for what has been written. -/
structure Fewer (e e' : Encoder κ) : Prop where
  frame : e' = { e with connecter := e'.connecter, connections := e'.connections }
  lookup : ∀ h c', e'.connections.lookup h = some c' →
    ∃ c, e.connections.lookup h = some c ∧ c' = { c with written := c'.written }

theorem Fewer.refl (e : Encoder κ) : Fewer e e := ⟨rfl, fun _ c' here => ⟨c', here, rfl⟩⟩

theorem Fewer.trans (first : Fewer e e') (second : Fewer e' e'') : Fewer e e'' := by
  refine ⟨?_, fun h c'' here => ?_⟩
  · rw [second.frame, first.frame]
  · obtain ⟨c', there, same'⟩ := second.lookup h c'' here
    obtain ⟨c, before, same⟩ := first.lookup h c' there
    exact ⟨c, before, by rw [same', same]⟩

theorem fewer_connecter (e : Encoder κ) (k : κ) : Fewer e { e with connecter := k } :=
  ⟨rfl, fun _ c' here => ⟨c', here, rfl⟩⟩

theorem fewer_send_message (e : Encoder κ) (h : ℕ) (message : Text) :
    Fewer e (e.send_message h message) := by
  rw [send_message]
  cases there : e.connections.lookup h with
  | none => exact .refl e
  | some c =>
    refine ⟨rfl, fun k c' here => ?_⟩
    by_cases same : k = h
    · subst same
      rw [lookup_put, Option.some.injEq] at here
      exact ⟨c, there, here ▸ rfl⟩
    · rw [lookup_put_ne same] at here
      exact ⟨c', here, rfl⟩

theorem Fewer.foldl {β : Type} (f : Encoder κ → β → Encoder κ) (step : ∀ e b, Fewer e (f e b))
    (l : List β) (e : Encoder κ) : Fewer e (l.foldl f e) := by
  induction l generalizing e with
  | nil => exact .refl e
  | cons b l ih => exact (step e b).trans (ih (f e b))

theorem fewer_told (e : Encoder κ) (r : κ × List (ℕ × Text)) : Fewer e (e.told r) :=
  (fewer_connecter e r.1).trans (.foldl _ (fun e m => fewer_send_message e m.1 m.2) r.2 _)

theorem fewer_erase (e : Encoder κ) (h : ℕ) :
    Fewer e { e with connections := e.connections.erase h } := by
  refine ⟨rfl, fun k c' here => ?_⟩
  by_cases same : k = h
  · rw [same, Finmap.lookup_erase] at here
    cases here
  · rw [Finmap.lookup_erase_ne same] at here
    exact ⟨c', here, rfl⟩

theorem fewer_close (e : Encoder κ) (h : ℕ) : Fewer e (e.close connecter h) := by
  rw [close]
  cases there : e.connections.lookup h with
  | none => exact .refl e
  | some c =>
    have less := fewer_erase e h
    dsimp only
    split_ifs
    · exact less.trans (fewer_told _ _)
    · exact less

theorem fewer_call (e : Encoder κ) (a : ConnecterCall) : Fewer e (e.call connecter a) := by
  cases a with
  | send_message h message => exact fewer_send_message e h message
  | close h => exact fewer_close e h

/-- A connection that has been closed is not there any more. -/
theorem lookup_close (e : Encoder κ) (h : ℕ) : (e.close connecter h).connections.lookup h = none := by
  rw [close]
  cases there : e.connections.lookup h with
  | none => exact there
  | some c =>
    dsimp only
    split_ifs
    · by_contra still
      obtain ⟨c', here⟩ := Option.ne_none_iff_exists'.1 still
      obtain ⟨c, before, -⟩ := (fewer_told _ _).lookup h c' here
      rw [Finmap.lookup_erase] at before
      cases before
    · exact Finmap.lookup_erase h _

/-- What is so of a connection after the call of the connecter: it is as it was, or it is the one that
the connecter has been told of, and is dead. -/
structure Told (own : Prop) (c c' : Connection) : Prop where
  id : c'.id = c.id
  complete : c'.complete = c.complete
  buffer : c'.buffer = c.buffer
  next : c'.next_len = c.next_len ∧ c'.next_func = c.next_func ∨
    own ∧ c'.next_len = 1 ∧ c'.next_func = .read_dead

theorem tell_frame (e : Encoder κ) (h : ℕ) (event : Option Event) : (e.tell connecter h event).1 =
    { e with
      connecter := (e.tell connecter h event).1.connecter
      connections := (e.tell connecter h event).1.connections } := by
  obtain _ | _ | message := event
  · rfl
  · exact (fewer_told e _).frame
  · have less := (fewer_connecter e (connecter.got_message e.connecter h message).1).trans
      (.foldl (call connecter) (fun e a => fewer_call e a)
        (connecter.got_message e.connecter h message).2.1 _)
    rw [tell]
    split_ifs
    · split
      · exact less.frame
      · rw [put, less.frame]
    · exact less.frame

/-- After the call of the connecter a connection was there before, and is as it was or is dead. -/
theorem tell_lookup (e : Encoder κ) (h : ℕ) (event : Option Event)
    (here : (e.tell connecter h event).1.connections.lookup k = some c') :
    ∃ c, e.connections.lookup k = some c ∧ Told (k = h) c c' := by
  have same : ∀ e₁, Fewer e e₁ → ∀ c', e₁.connections.lookup k = some c' →
      ∃ c, e.connections.lookup k = some c ∧ Told (k = h) c c' := by
    intro e₁ less c' here
    obtain ⟨c, there, same⟩ := less.lookup k c' here
    exact ⟨c, there, by rw [same], by rw [same], by rw [same], .inl (by rw [same]; exact ⟨rfl, rfl⟩)⟩
  obtain _ | _ | message := event
  · exact same e (.refl e) c' here
  · exact same _ (fewer_told e _) c' here
  · have less := (fewer_connecter e (connecter.got_message e.connecter h message).1).trans
      (.foldl (call connecter) (fun e a => fewer_call e a)
        (connecter.got_message e.connecter h message).2.1 _)
    rw [tell] at here
    split_ifs at here
    · split at here
      · exact same _ less c' here
      · next c₁ there =>
        by_cases own : k = h
        · subst own
          rw [lookup_put, Option.some.injEq] at here
          obtain ⟨c, before, told⟩ := same _ less c₁ there
          exact ⟨c, before, here ▸ ⟨told.id, told.complete, told.buffer, .inr ⟨rfl, rfl, rfl⟩⟩⟩
        · rw [lookup_put_ne own] at here
          exact same _ less c' here
    · exact same _ less c' here

end Fewer

/-! ### What comes in -/

section Turn

variable {connecter} {e e' : Encoder κ} {c c' : Connection} {h k : ℕ} {s : Text} {event : Option Event}

/-- What `next_func` does when it does not close the connection. -/
structure Turn (e e' : Encoder κ) (c c' : Connection) (s : Text) : Prop where
  frame : e' = { e with everinc := e'.everinc }
  pos : c'.next_len ≠ 0 ∨ c.next_func = .read_len ∧ c'.next_func = .read_message
  id : c'.id = c.id ∨ ∃ s, c'.id = some s ∧ s ≠ e.my_id ∧ (s ≠ [] → e.hasId s = false)
  complete : c'.complete = true → c.complete = true ∧ c'.id = c.id ∨
    c.next_func = .read_peer_id ∧ c'.id = some s
  peer_id : c'.next_func = .read_peer_id → c'.next_len = 20

theorem next_func_turn (step : e.next_func c s = some (e', c', event)) : Turn e e' c c' s := by
  rw [next_func] at step
  cases here : c.next_func with
  | read_header_len =>
    simp only [here, Option.ite_none_left_eq_some, Option.some.injEq, Prod.mk.injEq] at step
    obtain ⟨-, rfl, rfl, -⟩ := step
    exact ⟨rfl, .inl (Nat.succ_ne_zero _), .inl rfl, fun done => .inl ⟨done, rfl⟩, nofun⟩
  | read_header =>
    simp only [here, Option.ite_none_left_eq_some, Option.some.injEq, Prod.mk.injEq] at step
    obtain ⟨-, rfl, rfl, -⟩ := step
    exact ⟨rfl, .inl (Nat.succ_ne_zero _), .inl rfl, fun done => .inl ⟨done, rfl⟩, nofun⟩
  | read_reserved =>
    simp only [here, Option.some.injEq, Prod.mk.injEq] at step
    obtain ⟨rfl, rfl, -⟩ := step
    exact ⟨rfl, .inl (Nat.succ_ne_zero _), .inl rfl, fun done => .inl ⟨done, rfl⟩, nofun⟩
  | read_download_id =>
    simp only [here, Option.ite_none_left_eq_some, Option.some.injEq, Prod.mk.injEq] at step
    obtain ⟨-, rfl, rfl, -⟩ := step
    have id : (if c.locally_initiated then c
        else c.write (Connection.hello e.download_id ++ e.my_id)).id = c.id := by split_ifs <;> rfl
    have complete : (if c.locally_initiated then c
        else c.write (Connection.hello e.download_id ++ e.my_id)).complete = c.complete := by
      split_ifs <;> rfl
    exact ⟨rfl, .inl (Nat.succ_ne_zero _), .inl id, fun done => .inl ⟨complete ▸ done, id⟩,
      fun _ => rfl⟩
  | read_peer_id =>
    simp only [here, Option.map_eq_some_iff, Prod.mk.injEq] at step
    obtain ⟨⟨e₁, c₁⟩, read, rfl, rfl, -⟩ := step
    refine ⟨?_, .inl (Nat.succ_ne_zero _), ?_, fun _ => .inr ⟨here, ?_⟩, nofun⟩
    · rw [read_peer_id] at read
      split_ifs at read <;> cases read <;> rfl
    · rw [read_peer_id] at read
      split_ifs at read with unknown mine twice <;> cases read
      · exact .inr ⟨s, rfl, mine, fun some => by simpa [some] using twice⟩
      · exact .inr ⟨s, rfl, mine, fun some => by simpa [some] using twice⟩
      · exact .inl rfl
    · rw [read_peer_id] at read
      split_ifs at read with unknown mine twice own known <;> cases read
      · rfl
      · rfl
      · exact known
  | read_len =>
    simp only [here, Option.ite_none_left_eq_some, Option.some.injEq, Prod.mk.injEq] at step
    obtain ⟨-, rfl, rfl, -⟩ := step
    exact ⟨rfl, .inr ⟨here, rfl⟩, .inl rfl, fun done => .inl ⟨done, rfl⟩, nofun⟩
  | read_message =>
    simp only [here, Option.some.injEq, Prod.mk.injEq] at step
    obtain ⟨rfl, rfl, -⟩ := step
    exact ⟨rfl, .inl (Nat.succ_ne_zero _), .inl rfl, fun done => .inl ⟨done, rfl⟩, nofun⟩
  | read_dead =>
    simp only [here] at step
    cases step

/-- The functions that may wait for nothing, one after the other -/
def rank (h : ℕ) (e : Encoder κ) : ℕ :=
  match e.connections.lookup h with
  | none => 0
  | some c =>
    match c.next_func with
    | .read_len => 2
    | .read_message => 1
    | _ => 0

theorem lookup_store (there : e.connections.lookup h = some c) (x : Text) :
    (store h e x).connections.lookup h = some { c with buffer := c.buffer ++ x } := by
  rw [store, there]
  exact lookup_put

/-- A turn leaves the connection closed, or waiting for something, or with a message without bytes. -/
theorem act_need (there : e.connections.lookup h = some c)
    (here : (e.act connecter h).1.connections.lookup h = some c') :
    c'.buffer = [] ∧ (c'.next_len ≠ 0 ∨ c.next_func = .read_len ∧ c'.next_func = .read_message) := by
  rw [act, there] at here
  dsimp only at here
  cases step : e.next_func c c.buffer with
  | none =>
    rw [step] at here
    dsimp only at here
    rw [lookup_close] at here
    cases here
  | some r =>
    obtain ⟨e₁, c₁, event⟩ := r
    rw [step] at here
    dsimp only at here
    have turn := next_func_turn step
    obtain ⟨c₂, put, told⟩ := tell_lookup _ h event here
    rw [lookup_put, Option.some.injEq] at put
    subst put
    refine ⟨told.buffer, ?_⟩
    rcases told.next with ⟨len, func⟩ | ⟨-, dead, -⟩
    · rw [len, func]
      exact turn.pos
    · exact .inl (by omega)

theorem reader_lawful (connecter : Connecter κ) (h : ℕ) : (reader connecter h).Lawful (rank h) where
  store_nil e open_ := by
    obtain ⟨c, there⟩ := Option.ne_none_iff_exists'.1 fun none : e.connections.lookup h = none =>
      open_ (congrArg (Option.map _) none)
    have same : { c with buffer := c.buffer ++ [] } = c := by rw [List.append_nil]
    change store h e [] = e
    rw [store, there]
    exact (congrArg (e.put h) same).trans (put_same there)
  need_store e i x wait le := by
    obtain ⟨c, there, same⟩ := Option.map_eq_some_iff.1 wait
    change need h (store h e x) = some (i - x.length)
    rw [need, lookup_store there, Option.map_some, List.length_append]
    exact congrArg some (by dsimp only; omega)
  store_store e i x y wait le := by
    obtain ⟨c, there, -⟩ := Option.map_eq_some_iff.1 wait
    change store h (store h e x) y = store h e (x ++ y)
    rw [store, lookup_store there, store, store, there]
    exact (put_put ..).trans (by rw [List.append_assoc])
  rank_le e := by
    rw [rank]
    split
    · exact Nat.zero_le 2
    · split
      · exact le_refl 2
      · exact Nat.le_succ 1
      · exact Nat.zero_le 2
  rank_act e wait again := by
    obtain ⟨c, there, -⟩ := Option.map_eq_some_iff.1 wait
    obtain ⟨c', here, none⟩ := Option.map_eq_some_iff.1 again
    obtain ⟨empty, more | ⟨len, message⟩⟩ := act_need there here
    · rw [empty] at none
      exact absurd none more
    · rw [rank, rank, there, here]
      dsimp only
      rw [len, message]
      exact Nat.lt_succ_self 1

/-- It does not matter how what comes in is cut, as long as the connecter returns. -/
theorem data_came_in_append (connecter : Connecter κ) (e : Encoder κ) (h : ℕ) (s t : Text) :
    e.data_came_in connecter h (s ++ t) =
      if (e.data_came_in connecter h s).2 then
        (e.data_came_in connecter h s).1.data_came_in connecter h t
      else e.data_came_in connecter h s :=
  (reader_lawful connecter h).feed_append e s t

end Turn

/-! ### Ids -/

section Apart

variable {connecter} {e e' : Encoder κ} {c c' : Connection} {h k : ℕ} {s : Text}

/-- No more has been stored than is waited for, and that is twenty bytes for an id. -/
def Waiting (c : Connection) : Prop :=
  c.buffer.length ≤ c.next_len ∧ (c.next_func = .read_peer_id → c.next_len = 20)

/-- No id is that of the peer itself, and no two connections have the same id, but for one that is
empty, which no connection has that is complete; dials that wait are different, and not too many. -/
structure Apart (e : Encoder κ) : Prop where
  other : ∀ h c s, e.connections.lookup h = some c → c.id = some s → s ≠ [] → s ≠ e.my_id
  inj : ∀ h h' c c' s, e.connections.lookup h = some c → e.connections.lookup h' = some c' →
    c.id = some s → c'.id = some s → s ≠ [] → h = h'
  /-- A connection that is complete has the id that was given. -/
  complete : ∀ h c, e.connections.lookup h = some c → c.complete = true →
    ∃ s, c.id = some s ∧ s.length = 20
  waiting : ∀ h c, e.connections.lookup h = some c → Waiting c
  spares : e.spares.Nodup ∧ e.spares.length ≤ e.max_initiate

theorem hasId_iff : e.hasId s = true ↔ ∃ h c, e.connections.lookup h = some c ∧ c.id = some s := by
  rw [hasId, decide_eq_true_iff]
  constructor
  · rintro ⟨h, -, has⟩
    obtain ⟨c, there, id⟩ := Option.bind_eq_some_iff.1 has
    exact ⟨h, c, there, id⟩
  · rintro ⟨h, c, there, id⟩
    refine ⟨h, Finmap.mem_keys.2 (Finmap.mem_of_lookup_eq_some there), ?_⟩
    rw [there]
    exact id

/-- Fewer connections with the same ids -/
theorem Apart.sub (apart : Apart e) (frame : e'.my_id = e.my_id ∧ e'.max_initiate = e.max_initiate ∧
      e'.spares = e.spares)
    (lookup : ∀ h c', e'.connections.lookup h = some c' → ∃ c, e.connections.lookup h = some c ∧
      c'.id = c.id ∧ c'.complete = c.complete ∧ (Waiting c → Waiting c')) : Apart e' := by
  obtain ⟨mine, most, spares⟩ := frame
  refine ⟨fun h c' s here id some => ?_, fun h h' c c' s here here' id id' some => ?_,
    fun h c' here done => ?_, fun h c' here => ?_, ?_⟩
  · obtain ⟨c, there, same, -⟩ := lookup h c' here
    rw [mine]
    exact apart.other h c s there (same ▸ id) some
  · obtain ⟨d, there, same, -⟩ := lookup h c here
    obtain ⟨d', there', same', -⟩ := lookup h' c' here'
    exact apart.inj h h' d d' s there there' (same ▸ id) (same' ▸ id') some
  · obtain ⟨c, there, same, too, -⟩ := lookup h c' here
    rw [same]
    exact apart.complete h c there (too ▸ done)
  · obtain ⟨c, there, -, -, waiting⟩ := lookup h c' here
    exact waiting (apart.waiting h c there)
  · rw [spares, most]
    exact apart.spares

theorem Apart.fewer (apart : Apart e) (less : Fewer e e') : Apart e' := by
  refine apart.sub ?_ fun h c' here => ?_
  · rw [less.frame]
    exact ⟨rfl, rfl, rfl⟩
  · obtain ⟨c, there, same⟩ := less.lookup h c' here
    exact ⟨c, there, by rw [same], by rw [same], by rw [same]; exact id⟩

/-- A connection gets another state, and an id only if no other one has it. -/
theorem Apart.put (apart : Apart e)
    (id : (∃ d, e.connections.lookup h = some d ∧ c.id = d.id) ∨ ∀ s, c.id = some s → s ≠ [] →
      s ≠ e.my_id ∧ e.hasId s = false)
    (complete : c.complete = true → ∃ s, c.id = some s ∧ s.length = 20) (waiting : Waiting c) :
    Apart (e.put h c) := by
  have other : ∀ s, c.id = some s → s ≠ [] → s ≠ e.my_id := by
    intro s is some
    rcases id with ⟨d, there, same⟩ | new
    · exact apart.other h d s there (same ▸ is) some
    · exact (new s is some).1
  have alone : ∀ k d s, k ≠ h → e.connections.lookup k = some d → c.id = some s → d.id = some s →
      s = [] := by
    intro k d s ne there is is'
    by_contra some
    rcases id with ⟨d', there', same⟩ | new
    · exact ne (apart.inj k h d d' s there there' is' (same ▸ is) some)
    · exact absurd (hasId_iff.2 ⟨k, d, there, is'⟩) (by rw [(new s is some).2]; exact Bool.false_ne_true)
  refine ⟨fun k d s here is some => ?_, fun k k' d d' s here here' is is' some => ?_,
    fun k d here done => ?_, fun k d here => ?_, apart.spares⟩
  · by_cases own : k = h
    · rw [own, lookup_put, Option.some.injEq] at here
      exact other s (here ▸ is) some
    · rw [lookup_put_ne own] at here
      exact apart.other k d s here is some
  · by_cases own : k = h <;> by_cases own' : k' = h
    · exact own.trans own'.symm
    · rw [own, lookup_put, Option.some.injEq] at here
      rw [lookup_put_ne own'] at here'
      exact absurd (alone k' d' s own' here' (here ▸ is) is') some
    · rw [own', lookup_put, Option.some.injEq] at here'
      rw [lookup_put_ne own] at here
      exact absurd (alone k d s own here (here' ▸ is') is) some
    · rw [lookup_put_ne own] at here
      rw [lookup_put_ne own'] at here'
      exact apart.inj k k' d d' s here here' is is' some
  · by_cases own : k = h
    · rw [own, lookup_put, Option.some.injEq] at here
      exact here ▸ complete (here ▸ done)
    · rw [lookup_put_ne own] at here
      exact apart.complete k d here done
  · by_cases own : k = h
    · rw [own, lookup_put, Option.some.injEq] at here
      exact here ▸ waiting
    · rw [lookup_put_ne own] at here
      exact apart.waiting k d here

theorem Apart.store (apart : Apart e) {i : ℕ} {x : Text} (wait : need h e = some i)
    (short : x.length ≤ i) : Apart (store h e x) := by
  rw [Encoder.store]
  obtain ⟨c, there, rest⟩ := Option.map_eq_some_iff.1 wait
  rw [there]
  obtain ⟨room, peer_id⟩ := apart.waiting h c there
  refine apart.put (.inl ⟨c, there, rfl⟩) (fun done => apart.complete h c there done) ⟨?_, peer_id⟩
  rw [List.length_append]
  dsimp only at rest ⊢
  omega

/-- A turn keeps the ids apart. -/
theorem Apart.act (apart : Apart e) (wait : need h e = some 0) : Apart (e.act connecter h).1 := by
  rw [Encoder.act]
  obtain ⟨c, there, rest⟩ := Option.map_eq_some_iff.1 wait
  obtain ⟨room, peer_id⟩ := apart.waiting h c there
  rw [there]
  dsimp only
  cases step : e.next_func c c.buffer with
  | none => exact apart.fewer (fewer_close e h)
  | some r =>
    obtain ⟨e₁, c₁, event⟩ := r
    have turn := next_func_turn step
    have frame := turn.frame
    have apart₁ : Apart e₁ := apart.sub (by rw [frame]; exact ⟨rfl, rfl, rfl⟩) fun k c' here =>
      ⟨c', by rw [frame] at here; exact here, rfl, rfl, id⟩
    have put : Apart (e₁.put h { c₁ with buffer := [] }) := by
      refine apart₁.put ?_ (fun done => ?_) ⟨Nat.zero_le _, turn.peer_id⟩
      · rcases turn.id with same | ⟨s, is, mine, new⟩
        · exact .inl ⟨c, by rw [frame]; exact there, same⟩
        · refine .inr fun s' is' some => ?_
          obtain rfl := Option.some.inj (is.symm.trans is')
          rw [frame]
          exact ⟨mine, new some⟩
      · rcases turn.complete done with ⟨was, same⟩ | ⟨reading, known⟩
        · exact same ▸ apart.complete h c there was
        · have := peer_id reading
          exact ⟨_, known, by omega⟩
    refine put.sub ?_ fun k c' here => ?_
    · dsimp only
      rw [tell_frame]
      exact ⟨rfl, rfl, rfl⟩
    · obtain ⟨c₂, there, told⟩ := tell_lookup _ h event here
      refine ⟨c₂, there, told.id, told.complete, fun waiting => ?_⟩
      rcases told.next with ⟨len, func⟩ | ⟨rfl, len, func⟩
      · rwa [Waiting, told.buffer, len, func]
      · -- the connection that is dead has had its buffer emptied
        rw [lookup_put, Option.some.injEq] at there
        subst there
        rw [Waiting, told.buffer, len, func]
        exact ⟨Nat.zero_le _, nofun⟩

theorem Apart.data_came_in (apart : Apart e) (s : Text) : Apart (e.data_came_in connecter h s).1 :=
  (reader_lawful connecter h).feed_induct (fun _ _ _ apart wait short => apart.store wait short)
    (fun _ apart wait => apart.act wait) apart s

/-- A connection that is begun -/
theorem Apart.init (apart : Apart e) (h : ℕ) (id : Option Text) (is_local : Bool)
    (new : ∀ s, id = some s → s ≠ [] → s ≠ e.my_id ∧ e.hasId s = false) :
    Apart (e.put h (.init e.download_id e.my_id id is_local)) :=
  apart.put (.inr new) Bool.noConfusion ⟨Nat.zero_le _, nofun⟩

theorem Apart.start_connection (apart : Apart e) (dns : Text) (id : Option Text)
    (socket : Option ℕ) : Apart (e.start_connection dns id socket) := by
  unfold Encoder.start_connection
  split_ifs with known full more
  · exact apart
  · exact ⟨apart.other, apart.inj, apart.complete, apart.waiting,
      List.nodup_append.2 ⟨apart.spares.1, List.nodup_singleton dns, fun a mem b new same => by
        rw [List.mem_singleton] at new
        exact more.2 (new ▸ same ▸ mem)⟩,
      by rw [List.length_append]; exact more.1⟩
  · exact apart
  · cases socket with
    | none => exact apart
    | some h =>
      refine apart.init h id true fun s is some => ?_
      subst is
      simp only [not_and_or, not_or, not_not, Option.mem_def] at known
      rcases known with none | none | ⟨mine, no⟩
      · exact absurd none (Option.some_ne_none s)
      · exact absurd (Option.some.inj none) some
      · exact ⟨fun same => mine (congrArg Option.some same),
          by by_contra has; exact no ⟨s, rfl, by simpa using has⟩⟩

theorem Apart.refill (apart : Apart e) (socket : ℕ → Option ℕ) (n : ℕ) :
    Apart (refill socket n e) := by
  induction n generalizing e with
  | zero => exact apart
  | succ n ih =>
    rw [Encoder.refill]
    split
    · exact apart
    · split_ifs
      · have fewer : Apart { e with spares := e.spares.dropLast } :=
          ⟨apart.other, apart.inj, apart.complete, apart.waiting,
            apart.spares.1.sublist (List.dropLast_sublist _), by
              rw [List.length_dropLast]
              exact (Nat.sub_le _ 1).trans apart.spares.2⟩
        exact ih (fewer.start_connection ..)
      · exact apart

/-- What happens to an encoder. -/
inductive Step (connecter : Connecter κ) : Encoder κ → Encoder κ → Prop where
  | start_connection (e : Encoder κ) (dns : Text) (id : Option Text) (socket : Option ℕ) :
      Step connecter e (e.start_connection dns id socket)
  | external_connection_made (e : Encoder κ) (h : ℕ) :
      Step connecter e (e.external_connection_made h)
  | data_came_in (e : Encoder κ) (h : ℕ) (s : Text) :
      Step connecter e (e.data_came_in connecter h s).1
  | connection_flushed (e : Encoder κ) (h : ℕ) : Step connecter e (e.connection_flushed connecter h)
  | connection_lost (e : Encoder κ) (h : ℕ) (socket : ℕ → Option ℕ) :
      Step connecter e (e.connection_lost connecter h socket)
  | send_keepalives (e : Encoder κ) (order : List ℕ) : Step connecter e (e.send_keepalives order)
  /-- The connecter acts by itself. -/
  | call (e : Encoder κ) (a : ConnecterCall) : Step connecter e (e.call connecter a)

theorem Apart.step (apart : Apart e) (step : Step connecter e e') : Apart e' := by
  cases step with
  | start_connection dns id socket => exact apart.start_connection dns id socket
  | external_connection_made h => exact apart.init h none false fun s is => absurd is.symm (Option.some_ne_none s)
  | data_came_in h s => exact apart.data_came_in s
  | connection_flushed h =>
    rw [connection_flushed]
    split
    · exact apart
    · split_ifs
      · exact apart.fewer (fewer_told _ _)
      · exact apart
  | connection_lost h socket => exact (apart.fewer (fewer_close e h)).refill socket _
  | send_keepalives order =>
    refine apart.fewer (Fewer.foldl _ (fun e h => ?_) order e)
    split_ifs
    · exact fewer_send_message e h []
    · exact .refl e
  | call a => exact apart.fewer (fewer_call e a)

/-- What happens to an encoder without connections keeps the ids apart. -/
theorem apart_of_run {connecter : Connecter κ} (empty : e.connections = ∅) (none : e.spares = [])
    (run : Relation.ReflTransGen (Step connecter) e e') : Apart e' := by
  induction run with
  | refl =>
    have nothing : ∀ h c, e.connections.lookup h ≠ some c := fun h c here => by
      rw [empty, Finmap.lookup_empty] at here
      cases here
    exact ⟨fun h c s here => absurd here (nothing h c), fun h h' c c' s here => absurd here (nothing h c),
      fun h c here => absurd here (nothing h c), fun h c here => absurd here (nothing h c),
      none ▸ ⟨List.nodup_nil, Nat.zero_le _⟩⟩
  | tail _ step ih => exact ih.step step

/-- Whatever happens, no peer is connected to itself, and no two connections are to the same peer: a
connection that is complete has an id of twenty bytes, and an id that is not empty is one connection's
and not the own one. -/
theorem ids_apart (connecter : Connecter κ) {e e' : Encoder κ} (empty : e.connections = ∅)
    (none : e.spares = []) (run : Relation.ReflTransGen (Step connecter) e e') :
    (∀ h c, e'.connections.lookup h = some c → c.complete = true →
      ∃ s, c.id = some s ∧ s.length = 20) ∧
      (∀ h c s, e'.connections.lookup h = some c → c.id = some s → s ≠ [] → s ≠ e'.my_id ∧
        ∀ h' c', e'.connections.lookup h' = some c' → c'.id = some s → h' = h) ∧
      e'.spares.Nodup ∧ e'.spares.length ≤ e'.max_initiate := by
  have apart := apart_of_run empty none run
  refine ⟨apart.complete, fun h c s here is some => ⟨apart.other h c s here is some, ?_⟩, apart.spares⟩
  exact fun h' c' here' is' => apart.inj h' h c' c s here' here is' is some

/-- A connecter that does nothing -/
def quiet : Connecter Unit :=
  ⟨fun _ _ => ((), []), fun _ _ => ((), []), fun _ _ => ((), []), fun _ _ _ => ((), [], false)⟩

/-- Two connections from outside, with a handshake each -/
def twoHandshakes : Encoder Unit :=
  let torrent := List.replicate 20 't'
  let e : Encoder Unit := ⟨(), List.replicate 20 'a', torrent, 500, 40, false, ∅, []⟩
  let e := (e.external_connection_made 0).external_connection_made 1
  let e := (e.data_came_in quiet 0 (Connection.hello torrent ++ List.replicate 20 'b')).1
  (e.data_came_in quiet 1 (Connection.hello torrent ++ List.replicate 20 'c')).1

theorem complete_twoHandshakes (h : ℕ) (lt : h < 2) :
    ∃ c, twoHandshakes.connections.lookup h = some c ∧ c.complete = true := by
  obtain rfl | rfl : h = 0 ∨ h = 1 := by omega
  · exact ⟨_, rfl, rfl⟩
  · exact ⟨_, rfl, rfl⟩

/-- Both handshakes end, and their ids are different. -/
theorem ids_apart_two : ∃ c c' : Connection, twoHandshakes.connections.lookup 0 = some c ∧
    twoHandshakes.connections.lookup 1 = some c' ∧ c.complete = true ∧ c'.complete = true ∧
    c.id ≠ c'.id := by
  obtain ⟨c, here, done⟩ := complete_twoHandshakes 0 (by decide)
  obtain ⟨c', here', done'⟩ := complete_twoHandshakes 1 (by decide)
  refine ⟨c, c', here, here', done, done', fun same => ?_⟩
  obtain ⟨known, apart, -⟩ := ids_apart quiet (e := ⟨(), List.replicate 20 'a', List.replicate 20 't',
    500, 40, false, ∅, []⟩) rfl rfl ((((Relation.ReflTransGen.refl.tail
      (.external_connection_made _ 0)).tail (.external_connection_made _ 1)).tail
      (.data_came_in _ 0 _)).tail (.data_came_in _ 1 _))
  obtain ⟨s, is, long⟩ := known 0 c here done
  have some : s ≠ [] := fun empty => by rw [empty] at long; cases long
  exact absurd ((apart 0 c s here is some).2 1 c' here' (same ▸ is)) Nat.one_ne_zero

end Apart

end Encoder

/-! ### Numbers -/

theorem length_tobinary (i : ℕ) : (tobinary i).length = 4 := rfl

theorem tobinary_eq (i : ℕ) : tobinary i = [Char.ofNat (i / 2 ^ 24), Char.ofNat (i / 2 ^ 16 % 2 ^ 8),
    Char.ofNat (i / 2 ^ 8 % 2 ^ 8), Char.ofNat (i % 2 ^ 8)] := by
  have low := fun n => Nat.and_two_pow_sub_one_eq_mod n 8
  rw [tobinary, show 0xFF = 2 ^ 8 - 1 from rfl, low, low, low, Nat.shiftRight_eq_div_pow,
    Nat.shiftRight_eq_div_pow, Nat.shiftRight_eq_div_pow]

theorem toint_tobinary {i : ℕ} (small : i < 2 ^ 32) : toint (tobinary i) = i := by
  rw [toint, tobinary_eq]
  simp only [List.foldl_cons, List.foldl_nil]
  rw [toNat_ofNat (by omega), toNat_ofNat (by omega), toNat_ofNat (by omega), toNat_ofNat (by omega)]
  omega

theorem bytes_tobinary {i : ℕ} (small : i < 2 ^ 32) : Bytes (tobinary i) := by
  intro c mem
  rw [tobinary_eq] at mem
  simp only [List.mem_cons, List.not_mem_nil, or_false] at mem
  rcases mem with rfl | rfl | rfl | rfl <;> rw [toNat_ofNat (by omega)] <;> omega

theorem toint_lt {s : Text} (bytes : Bytes s) : toint s < 256 ^ s.length := by
  induction s using List.reverseRecOn with
  | nil => exact Nat.one_pos
  | append_singleton s c ih =>
    have high := ih fun c mem => bytes c (List.mem_append_left _ mem)
    have low := bytes c (by simp)
    rw [toint, List.foldl_append, List.length_append, List.length_singleton, Nat.pow_succ]
    change toint s * 256 + c.toNat < _
    omega

theorem tobinary_toint {s : Text} (bytes : Bytes s) (four : s.length = 4) : tobinary (toint s) = s := by
  obtain ⟨a, b, c, d, rfl⟩ := List.length_eq_four.1 four
  obtain ⟨ha, hb, hc, hd⟩ : a.toNat < 256 ∧ b.toNat < 256 ∧ c.toNat < 256 ∧ d.toNat < 256 :=
    ⟨bytes a (by simp), bytes b (by simp), bytes c (by simp), bytes d (by simp)⟩
  have number : toint [a, b, c, d] =
      ((a.toNat * 256 + b.toNat) * 256 + c.toNat) * 256 + d.toNat := by
    simp only [toint, List.foldl_cons, List.foldl_nil, Nat.zero_mul, Nat.zero_add]
  have first : toint [a, b, c, d] / 2 ^ 24 = a.toNat := by omega
  have second : toint [a, b, c, d] / 2 ^ 16 % 2 ^ 8 = b.toNat := by omega
  have third : toint [a, b, c, d] / 2 ^ 8 % 2 ^ 8 = c.toNat := by omega
  have last : toint [a, b, c, d] % 2 ^ 8 = d.toNat := by omega
  rw [tobinary_eq, first, second, third, last, Char.ofNat_toNat, Char.ofNat_toNat, Char.ofNat_toNat,
    Char.ofNat_toNat]

end Ydfs.BitTorrent
