import Ydfs.BitTorrent.Encrypter

/-!
# A connection from both sides

One peer dials another one that has the same torrent.  What each of them writes arrives at the other one
in pieces of any size, at any time.  After the handshake both are told of the connection, and each gets
the messages that the other one sends, all of them and in their order (`messages_in_order`).
-/

namespace Ydfs.BitTorrent

open Wubi.Sax (Text)

/-! ### The model of the source -/

/-- What the connecter of the tests writes down. -/
inductive Log where
  | made (c : ℕ)
  | lost (c : ℕ)
  | flushed (c : ℕ)
  | got (c : ℕ) (message : Text)
deriving DecidableEq

/-- `DummyConnecter`, as long as `close_next` is not set -/
def dummyConnecter : Connecter (List Log) where
  connection_made log c := (log ++ [.made c], [])
  connection_lost log c := (log ++ [.lost c], [])
  connection_flushed log c := (log ++ [.flushed c], [])
  got_message log c message := (log ++ [.got c message], [], false)

/-- Two encoders, each with the number of bytes that it has read of what the other one wrote, and the
messages that it was asked to send. -/
structure Link where
  a : Encoder (List Log)
  b : Encoder (List Log)
  readA : ℕ
  readB : ℕ
  sentA : List Text
  sentB : List Text

/-- What has been written to a connection -/
def Encoder.written (e : Encoder (List Log)) (h : ℕ) : Text :=
  ((e.connections.lookup h).map (·.written)).getD []

/-- Whether a connection is complete -/
def Encoder.ready (e : Encoder (List Log)) (h : ℕ) : Prop :=
  ∃ c, e.connections.lookup h = some c ∧ c.complete = true

/-- What happens between the two: bytes arrive at one of them, or one of them sends a message. -/
inductive Link.Step (x y : ℕ) : Link → Link → Prop where
  | toA (l : Link) (k : ℕ) : Step x y l { l with
      a := (l.a.data_came_in dummyConnecter x (((l.b.written y).drop l.readA).take k)).1
      readA := l.readA + (((l.b.written y).drop l.readA).take k).length }
  | toB (l : Link) (k : ℕ) : Step x y l { l with
      b := (l.b.data_came_in dummyConnecter y (((l.a.written x).drop l.readB).take k)).1
      readB := l.readB + (((l.a.written x).drop l.readB).take k).length }
  | sendA (l : Link) (message : Text) (ready : l.a.ready x) (short : message.length < 2 ^ 32)
      (takes : message.length ≤ l.b.max_len) : Step x y l { l with
      a := l.a.send_message x message
      sentA := l.sentA ++ [message] }
  | sendB (l : Link) (message : Text) (ready : l.b.ready y) (short : message.length < 2 ^ 32)
      (takes : message.length ≤ l.a.max_len) : Step x y l { l with
      b := l.b.send_message y message
      sentB := l.sentB ++ [message] }

namespace Encoder

variable {e e' : Encoder (List Log)} {c c' : Connection} {h : ℕ} {s t : Text}

/-! ### What is not looked at -/

/-- The connection, changed -/
def change (e : Encoder (List Log)) (h : ℕ) (f : Connection → Connection) : Encoder (List Log) :=
  match e.connections.lookup h with
  | none => e
  | some c => e.put h (f c)

/-- A change of a connection that the functions do not look at -/
structure Blind (f : Connection → Connection) : Prop where
  id : ∀ c, (f c).id = c.id
  locally_initiated : ∀ c, (f c).locally_initiated = c.locally_initiated
  next_func : ∀ c, (f c).next_func = c.next_func
  write : ∀ c s, f (c.write s) = (f c).write s
  next : ∀ c n g, f (c.next n g) = (f c).next n g
  setId : ∀ c s, f (c.setId s) = (f c).setId s
  setComplete : ∀ c, f c.setComplete = (f c).setComplete

theorem blind_buffer (b : Text) : Blind fun c => { c with buffer := b } :=
  ⟨fun _ => rfl, fun _ => rfl, fun _ => rfl, fun _ _ => rfl, fun _ _ _ => rfl, fun _ _ => rfl,
    fun _ => rfl⟩

theorem blind_wrote (w : Text) : Blind fun c => { c with written := w ++ c.written } :=
  ⟨fun _ => rfl, fun _ => rfl, fun _ => rfl, fun c s => by simp [Connection.write], fun _ _ _ => rfl,
    fun _ _ => rfl, fun _ => rfl⟩

theorem lookup_change (there : e.connections.lookup h = some c) (f : Connection → Connection) :
    (e.change h f).connections.lookup h = some (f c) := by
  rw [change, there]
  exact lookup_put

theorem change_none (closed : e.connections.lookup h = none) (f : Connection → Connection) :
    e.change h f = e := by
  rw [change, closed]

theorem change_put (e : Encoder (List Log)) (h : ℕ) (c : Connection) (f : Connection → Connection) :
    (e.put h c).change h f = e.put h (f c) := by
  rw [change, lookup_put]
  exact put_put ..

theorem change_frame (e : Encoder (List Log)) (h : ℕ) (f : Connection → Connection) :
    e.change h f = { e with connections := (e.change h f).connections } := by
  rw [change]
  split <;> rfl

theorem hasId_change {f : Connection → Connection} (id : ∀ c, (f c).id = c.id)
    (e : Encoder (List Log)) (h : ℕ) (s : Text) : (e.change h f).hasId s = e.hasId s := by
  cases there : e.connections.lookup h with
  | none => rw [change_none there]
  | some c =>
    have other : ∀ k, k ≠ h → (e.change h f).connections.lookup k = e.connections.lookup k := by
      intro k ne
      rw [change, there]
      exact lookup_put_ne ne
    rw [Bool.eq_iff_iff, hasId_iff, hasId_iff]
    constructor
    · rintro ⟨k, d, here, is⟩
      by_cases own : k = h
      · rw [own, lookup_change there, Option.some.injEq] at here
        exact ⟨h, c, there, by rw [← is, ← here, id]⟩
      · exact ⟨k, d, (other k own).symm.trans here, is⟩
    · rintro ⟨k, d, here, is⟩
      by_cases own : k = h
      · subst own
        exact ⟨k, f c, lookup_change there f, by rw [id, ← is, Option.some.inj (there.symm.trans here)]⟩
      · exact ⟨k, d, (other k own).trans here, is⟩

theorem next_func_blind {f : Connection → Connection} (blind : Blind f) (e : Encoder (List Log))
    (h : ℕ) (c : Connection) (s : Text) :
    (e.change h f).next_func (f c) s = (e.next_func c s).map fun r =>
      ({ r.1 with connections := (e.change h f).connections }, f r.2.1, r.2.2) := by
  have has := hasId_change blind.id e h
  rw [change_frame] at has ⊢
  generalize (e.change h f).connections = cs at has ⊢
  rw [next_func, next_func, blind.next_func]
  cases c.next_func with
  | read_header_len =>
    dsimp only
    rw [← blind.next]
    split_ifs <;> rfl
  | read_header =>
    dsimp only
    rw [← blind.next]
    split_ifs <;> rfl
  | read_reserved =>
    dsimp only
    rw [← blind.next]
    rfl
  | read_download_id =>
    dsimp only
    rw [blind.locally_initiated, ← blind.write]
    by_cases wrong : s ≠ e.download_id
    · rw [if_pos wrong, if_pos wrong]
      rfl
    · rw [if_neg wrong, if_neg wrong]
      split_ifs <;> rw [← blind.next] <;> rfl
  | read_peer_id =>
    dsimp only
    simp only [read_peer_id, has, blind.id, blind.locally_initiated, ← blind.setId, ← blind.write]
    split_ifs <;>
      simp only [Option.map_none, Option.map_some, ← blind.setComplete, ← blind.next]
  | read_len =>
    dsimp only
    rw [← blind.next]
    split_ifs <;> rfl
  | read_message =>
    dsimp only
    rw [← blind.next]
    rfl
  | read_dead => rfl

/-! ### Reading -/

/-- What is written down of an event -/
def logOf (h : ℕ) : Option Event → List Log
  | none => []
  | some .made => [.made h]
  | some (.got message) => [.got h message]

/-- The encoder after a turn that does not close the connection -/
def after (h : ℕ) (r : Encoder (List Log) × Connection × Option Event) : Encoder (List Log) :=
  { r.1 with
    connecter := r.1.connecter ++ logOf h r.2.2
    connections := r.1.connections.insert h { r.2.1 with buffer := [] } }

theorem tell_dummy (e : Encoder (List Log)) (h : ℕ) (event : Option Event) :
    e.tell dummyConnecter h event = ({ e with connecter := e.connecter ++ logOf h event }, true) := by
  obtain _ | _ | message := event
  · rw [logOf, List.append_nil]
    rfl
  · rfl
  · rfl

theorem act_dummy {r : Encoder (List Log) × Connection × Option Event}
    (there : e.connections.lookup h = some c) (step : e.next_func c c.buffer = some r) :
    e.act dummyConnecter h = (after h r, true) := by
  rw [act, there]
  dsimp only
  rw [step]
  exact tell_dummy _ h r.2.2

theorem act_returns (e : Encoder (List Log)) (h : ℕ) : (e.act dummyConnecter h).2 = true := by
  rw [act]
  split
  · rfl
  · split
    · rfl
    · rw [tell_dummy]

/-- What comes in, to the connecter of the tests -/
def receive (h : ℕ) (e : Encoder (List Log)) (s : Text) : Encoder (List Log) :=
  (e.data_came_in dummyConnecter h s).1

theorem receive_append (e : Encoder (List Log)) (s t : Text) :
    receive h e (s ++ t) = receive h (receive h e s) t := by
  rw [receive, data_came_in, (reader_lawful dummyConnecter h).feed_append, if_pos]
  · rfl
  · exact (reader_lawful dummyConnecter h).feed_snd (fun e => act_returns e h) e s

theorem store_eq (there : e.connections.lookup h = some c) (empty : c.buffer = []) (s : Text) :
    store h e s = e.change h fun c => { c with buffer := s } := by
  rw [store, change, there]
  dsimp only
  rw [empty, List.nil_append]

/-- The bytes that the connection waits for -/
theorem receive_turn {r : Encoder (List Log) × Connection × Option Event}
    (there : e.connections.lookup h = some c) (empty : c.buffer = []) (len : c.next_len = s.length)
    (step : e.next_func c s = some r) (t : Text) :
    receive h e (s ++ t) = receive h (after h r) t := by
  have wait : need h e = some s.length := by
    rw [need, there, Option.map_some, empty, len]
    rfl
  have blind := next_func_blind (blind_buffer s) e h c s
  rw [step, Option.map_some] at blind
  have acted := act_dummy (lookup_change there fun c => { c with buffer := s }) blind
  have same : after h ({ r.1 with connections := (e.change h fun c => { c with buffer := s }).connections },
      { r.2.1 with buffer := s }, r.2.2) = after h r := by
    rw [after, after, (next_func_turn step).frame, change, there]
    dsimp only [put]
    rw [Finmap.insert_insert]
  rw [receive, data_came_in, (reader_lawful dummyConnecter h).feed_act wait t]
  change (if ((store h e s).act dummyConnecter h).2 then
    (reader dummyConnecter h).feed ((store h e s).act dummyConnecter h).1 t else _).1 = _
  rw [if_pos (act_returns _ h), store_eq there empty, acted, same]
  rfl

theorem receive_nil (there : e.connections.lookup h = some c) (more : c.buffer.length < c.next_len) :
    receive h e [] = e := by
  have law := reader_lawful dummyConnecter h
  have wait : need h e = some (c.next_len - c.buffer.length) := by rw [need, there, Option.map_some]
  have short : ([] : Text).length < c.next_len - c.buffer.length := Nat.sub_pos_of_lt more
  rw [receive, data_came_in, law.feed_short wait short]
  exact law.store_nil e (Option.ne_none_iff_exists'.2 ⟨_, wait⟩)

/-- A closed connection reads nothing. -/
theorem receive_closed (closed : e.connections.lookup h = none) (s : Text) : receive h e s = e := by
  have wait : need h e = none := by rw [need, closed, Option.map_none]
  rw [receive, data_came_in, (reader_lawful dummyConnecter h).feed_none wait s]

theorem close_dummy (there : e.connections.lookup h = some c) : e.close dummyConnecter h = { e with
    connections := e.connections.erase h
    connecter := if c.complete then e.connecter ++ [.lost h] else e.connecter } := by
  rw [close, there]
  dsimp only
  split_ifs <;> rfl

/-- What has been written down stays. -/
theorem receive_log (e : Encoder (List Log)) (s : Text) :
    e.connecter <+: (receive h e s).connecter := by
  refine (reader_lawful dummyConnecter h).feed_induct (P := fun e' => e.connecter <+: e'.connecter)
    (fun e' _ x before _ _ => ?_) (fun e' before _ => ?_) (List.prefix_refl _) s
  · change e.connecter <+: (store h e' x).connecter
    rw [store]
    split <;> exact before
  · change e.connecter <+: (e'.act dummyConnecter h).1.connecter
    cases there : e'.connections.lookup h with
    | none =>
      rw [act, there]
      exact before
    | some c =>
      cases step : e'.next_func c c.buffer with
      | none =>
        rw [act, there]
        dsimp only
        rw [step, close_dummy there]
        dsimp only
        split_ifs
        · exact before.trans (List.prefix_append _ _)
        · exact before
      | some r =>
        rw [act_dummy there step]
        dsimp only [after]
        rw [(next_func_turn step).frame]
        exact before.trans (List.prefix_append _ _)

/-- Other bytes have been written to the connection before. -/
def wrote (e : Encoder (List Log)) (h : ℕ) (w : Text) : Encoder (List Log) :=
  e.change h fun c => { c with written := w ++ c.written }

/-- What comes in does the same whatever has been written. -/
theorem receive_wrote (e : Encoder (List Log)) (h : ℕ) (w s : Text) :
    receive h (e.wrote h w) s = (receive h e s).wrote h w := by
  refine ((reader_lawful dummyConnecter h).feed_rel (r := fun e e' => e' = e.wrote h w)
    ?_ ?_ ?_ rfl s).1
  · rintro e _ rfl
    change need h e = need h (e.wrote h w)
    cases there : e.connections.lookup h with
    | none => rw [wrote, change_none there]
    | some c =>
      rw [wrote, need, need, there, lookup_change there]
      rfl
  · rintro e _ x rfl
    change store h (e.wrote h w) x = (store h e x).wrote h w
    cases there : e.connections.lookup h with
    | none => rw [wrote, change_none there, store, there, wrote, change_none there]
    | some c =>
      rw [wrote, store, lookup_change there, store, there, wrote, change_put, change, there]
      exact put_put ..
  · rintro e _ rfl
    refine ⟨?_, (act_returns e h).trans (act_returns _ h).symm⟩
    change ((e.wrote h w).act dummyConnecter h).1 = (e.act dummyConnecter h).1.wrote h w
    cases there : e.connections.lookup h with
    | none =>
      have still : (e.act dummyConnecter h).1 = e := by rw [act, there]
      rw [wrote, change_none there, still, wrote, change_none there]
    | some c =>
      have blind := next_func_blind (blind_wrote w) e h c c.buffer
      have there' : (e.wrote h w).connections.lookup h = _ := lookup_change there _
      change (e.wrote h w).next_func _ _ = _ at blind
      have frame : e.wrote h w = { e with connections := (e.wrote h w).connections } :=
        change_frame e h _
      have wide : (e.wrote h w).connections =
          e.connections.insert h { c with written := w ++ c.written } := by
        rw [wrote, change, there]
        rfl
      cases step : e.next_func c c.buffer with
      | none =>
        rw [step, Option.map_none] at blind
        have erased : (e.wrote h w).connections.erase h = e.connections.erase h := by
          refine Finmap.ext_lookup fun k => ?_
          by_cases own : k = h
          · rw [own, Finmap.lookup_erase, Finmap.lookup_erase]
          · rw [Finmap.lookup_erase_ne own, Finmap.lookup_erase_ne own, wrote, change, there]
            exact lookup_put_ne own
        have closed : ((e.wrote h w).act dummyConnecter h).1 = (e.wrote h w).close dummyConnecter h := by
          rw [act, there']
          dsimp only
          rw [blind]
        have closed' : (e.act dummyConnecter h).1 = e.close dummyConnecter h := by
          rw [act, there]
          dsimp only
          rw [step]
        have shut : (e.close dummyConnecter h).wrote h w = e.close dummyConnecter h :=
          change_none (lookup_close e h) _
        rw [closed, closed', shut, close_dummy there, close_dummy there']
        rw [erased, frame]
      | some r =>
        rw [step, Option.map_some] at blind
        have acted := act_dummy there' blind
        have here : (after h r).connections.lookup h = some { r.2.1 with buffer := [] } :=
          Finmap.lookup_insert _
        have later : (after h r).wrote h w =
            (after h r).put h { r.2.1 with buffer := [], written := w ++ r.2.1.written } := by
          rw [wrote, change, here]
        rw [acted, act_dummy there step, later, after, after, (next_func_turn step).frame]
        dsimp only [put]
        change { e with
          connecter := _
          everinc := _
          connections := (e.wrote h w).connections.insert h _ } = _
        rw [wide, Finmap.insert_insert, Finmap.insert_insert]

/-! ### Streams -/

/-- A message as it is sent -/
def frame (message : Text) : Text := tobinary message.length ++ message

/-- What the connecter is told of these messages; nothing of a keepalive. -/
def told_of (h : ℕ) (messages : List Text) : List Log :=
  (messages.filter (· ≠ [])).map (.got h)

/-- A turn of which the connecter is not told -/
theorem receive_next (there : e.connections.lookup h = some c) (empty : c.buffer = [])
    (len : c.next_len = s.length) (step : e.next_func c s = some (e, c', none)) (empty' : c'.buffer = [])
    (t : Text) : receive h e (s ++ t) = receive h (e.put h c') t := by
  rw [receive_turn there empty len step, after, logOf, List.append_nil, ← empty']
  rfl

theorem receive_put (empty : c.buffer = []) (empty' : c'.buffer = []) (len : c.next_len = s.length)
    (step : (e.put h c).next_func c s = some (e.put h c, c', none)) (t : Text) :
    receive h (e.put h c) (s ++ t) = receive h (e.put h c') t := by
  rw [receive_next lookup_put empty len step empty', put_put]

/-- The header is read, and answered by a side that did not dial. -/
theorem receive_hello (there : e.connections.lookup h = some c) (func : c.next_func = .read_header_len)
    (len : c.next_len = 1) (empty : c.buffer = []) (size : e.download_id.length = 20) (t : Text) :
    receive h e (Connection.hello e.download_id ++ t) =
      receive h (e.put h ((if c.locally_initiated then c
        else c.write (Connection.hello e.download_id ++ e.my_id)).next 20 .read_peer_id)) t := by
  have cut : Connection.hello e.download_id ++ t = [Char.ofNat protocol_name.length] ++
      (protocol_name ++ (List.replicate 8 (Char.ofNat 0) ++ (e.download_id ++ t))) := by
    rw [Connection.hello]
    simp
  have first : e.next_func c [Char.ofNat protocol_name.length] =
      some (e, c.next protocol_name.length .read_header, none) := by
    rw [next_func, func]
    exact if_neg (by decide)
  have second : (e.put h (c.next protocol_name.length .read_header)).next_func
      (c.next protocol_name.length .read_header) protocol_name =
      some (e.put h (c.next protocol_name.length .read_header), c.next 8 .read_reserved, none) := by
    rw [next_func]
    exact if_neg fun ne => ne rfl
  have third : (e.put h (c.next 8 .read_reserved)).next_func (c.next 8 .read_reserved)
      (List.replicate 8 (Char.ofNat 0)) =
      some (e.put h (c.next 8 .read_reserved), c.next 20 .read_download_id, none) := rfl
  have last : (e.put h (c.next 20 .read_download_id)).next_func (c.next 20 .read_download_id)
      e.download_id = some (e.put h (c.next 20 .read_download_id),
        (if c.locally_initiated then c
          else c.write (Connection.hello e.download_id ++ e.my_id)).next 20 .read_peer_id, none) := by
    have answer : ((if c.locally_initiated then c.next 20 .read_download_id
        else (c.next 20 .read_download_id).write
          (Connection.hello e.download_id ++ e.my_id)).next 20 .read_peer_id) =
        (if c.locally_initiated then c
          else c.write (Connection.hello e.download_id ++ e.my_id)).next 20 .read_peer_id := by
      by_cases dialed : c.locally_initiated = true
      · rw [if_pos dialed, if_pos dialed]
        rfl
      · rw [if_neg dialed, if_neg dialed]
        rfl
    rw [next_func, ← answer]
    exact if_neg (not_not_intro rfl)
  have quiet : ((if c.locally_initiated then c
      else c.write (Connection.hello e.download_id ++ e.my_id)).next 20 .read_peer_id).buffer = [] := by
    split_ifs <;> exact empty
  have empty₂ : (c.next 8 .read_reserved).buffer = [] := empty
  have empty₃ : (c.next 20 .read_download_id).buffer = [] := empty
  calc receive h e (Connection.hello e.download_id ++ t)
    _ = receive h (e.put h (c.next protocol_name.length .read_header)) (protocol_name ++
          (List.replicate 8 (Char.ofNat 0) ++ (e.download_id ++ t))) := by
      rw [cut]
      exact receive_next (s := [Char.ofNat protocol_name.length]) there empty len first empty _
    _ = receive h (e.put h (c.next 8 .read_reserved))
          (List.replicate 8 (Char.ofNat 0) ++ (e.download_id ++ t)) :=
      receive_put (c := c.next protocol_name.length .read_header) empty empty₂ rfl second _
    _ = receive h (e.put h (c.next 20 .read_download_id)) (e.download_id ++ t) :=
      receive_put empty₂ empty₃ rfl third _
    _ = _ := receive_put empty₃ quiet size.symm last t

/-- The id is read, and the connecter is told of the connection. -/
theorem receive_id (there : e.connections.lookup h = some c) (func : c.next_func = .read_peer_id)
    (len : c.next_len = 20) (empty : c.buffer = []) {id : Text} (size : id.length = 20)
    (known : c.id = some id ∨ c.id = none ∧ id ≠ e.my_id ∧ e.hasId id = false) (t : Text) :
    ∃ e' c', receive h e (id ++ t) = receive h e' t ∧ e'.connections.lookup h = some c' ∧
      c'.next_func = .read_len ∧ c'.next_len = 4 ∧ c'.buffer = [] ∧ c'.complete = true ∧
      e'.max_len = e.max_len ∧ e'.connecter = e.connecter ++ [.made h] := by
  have some_ : id ≠ [] := fun none => by rw [none] at size; cases size
  have read : ∃ i d, e.read_peer_id c id = some ({ e with everinc := i }, d) := by
    rw [read_peer_id]
    rcases known with same | ⟨none, other, new⟩
    · refine ⟨e.everinc, c, ?_⟩
      rw [if_neg, if_pos same]
      rw [same, Option.some.injEq]
      exact not_or.2 ⟨Option.some_ne_none id, some_⟩
    · rw [if_pos (.inl none), if_neg other, if_neg fun both => by rw [new] at both; cases both.2]
      by_cases dialed : c.locally_initiated = true
      · exact ⟨e.everinc, (c.setId id).write e.my_id, if_pos dialed⟩
      · exact ⟨true, c.setId id, if_neg dialed⟩
  obtain ⟨i, d, read⟩ := read
  have step : e.next_func c id =
      some ({ e with everinc := i }, d.setComplete.next 4 .read_len, some .made) := by
    rw [next_func, func]
    dsimp only
    rw [read]
    rfl
  exact ⟨_, _, receive_turn there empty (len.trans size.symm) step t, Finmap.lookup_insert _, rfl, rfl,
    rfl, rfl, rfl, rfl⟩

/-- A message is read. -/
theorem receive_frame (there : e.connections.lookup h = some c) (func : c.next_func = .read_len)
    (len : c.next_len = 4) (empty : c.buffer = []) {message : Text} (short : message.length < 2 ^ 32)
    (takes : message.length ≤ e.max_len) (t : Text) :
    receive h e (frame message ++ t) =
      receive h { e with connecter := e.connecter ++ told_of h [message] } t := by
  have number : e.next_func c (tobinary message.length) =
      some (e, c.next message.length .read_message, none) := by
    rw [next_func, func]
    simp only [toint_tobinary short]
    exact if_neg (Nat.not_lt.2 takes)
  have body : (e.put h (c.next message.length .read_message)).next_func
      (c.next message.length .read_message) message =
      some (e.put h (c.next message.length .read_message), c.next 4 .read_len,
        if message ≠ [] then some (.got message) else none) := rfl
  have same : e.put h (c.next 4 .read_len) = e := by
    have back : c.next 4 .read_len = c := by rw [Connection.next, ← len, ← func]
    rw [back]
    exact put_same there
  have told : logOf h (if message ≠ [] then some (.got message) else none) = told_of h [message] := by
    rw [told_of]
    by_cases some : message = []
    · simp [some, logOf]
    · simp [some, logOf]
  have back : after h (e.put h (c.next message.length .read_message), c.next 4 .read_len,
      if message ≠ [] then some (.got message) else none) =
      { e with connecter := e.connecter ++ told_of h [message] } := by
    have settled : { c.next 4 .read_len with buffer := [] } = c.next 4 .read_len := by
      rw [← empty]
      rfl
    rw [after, told, settled]
    dsimp only [put]
    rw [Finmap.insert_insert]
    exact congrArg (fun e' => { e' with connecter := e.connecter ++ told_of h [message] }) same
  rw [frame, List.append_assoc,
    receive_next (s := tobinary message.length) there empty len number empty]
  exact (receive_turn (c := c.next message.length .read_message) lookup_put empty rfl body t).trans
    (by rw [back])

/-- Messages are read one after the other. -/
theorem receive_frames (there : e.connections.lookup h = some c) (func : c.next_func = .read_len)
    (len : c.next_len = 4) (empty : c.buffer = []) (messages : List Text)
    (fits : ∀ m ∈ messages, m.length < 2 ^ 32 ∧ m.length ≤ e.max_len) :
    receive h e (messages.flatMap frame) =
      { e with connecter := e.connecter ++ told_of h messages } := by
  induction messages generalizing e with
  | nil =>
    rw [List.flatMap_nil, receive_nil there (by rw [empty, len]; exact Nat.succ_pos 3), told_of]
    simp
  | cons m messages ih =>
    obtain ⟨short, takes⟩ := fits m List.mem_cons_self
    rw [List.flatMap_cons, receive_frame there func len empty short takes, ih
      (e := { e with connecter := e.connecter ++ told_of h [m] }) there
      fun m' mem => fits m' (List.mem_cons_of_mem m mem)]
    dsimp only
    rw [List.append_assoc, told_of, told_of, told_of, ← List.map_append, ← List.filter_append]
    rfl

/-! ### Writing -/

/-- Whether the id of the torrent has been read, and there was no exception -/
def answered : NextFunc → Bool
  | .read_peer_id | .read_len | .read_message => true
  | _ => false

/-- Whether messages are read -/
def carries : NextFunc → Bool
  | .read_len | .read_message => true
  | _ => false

/-- What a connection has written of the handshake -/
def greeting (d my : Text) (c : Connection) : Text :=
  if c.locally_initiated then Connection.hello d ++ (if c.id.isSome then my else [])
  else if answered c.next_func then Connection.hello d ++ my
  else []

/-- A connection has written what it has to of the handshake, and these messages. -/
structure Spoken (d my : Text) (dialed : Bool) (c : Connection) (sent : List Text) : Prop where
  side : c.locally_initiated = dialed
  text : c.written = greeting d my c ++ sent.flatMap frame
  early : c.complete = false → sent = [] ∧ c.id ≠ some []
  stage : c.complete = carries c.next_func
  known : c.complete = true → c.id.isSome

variable {sent : List Text} {d my : Text} {dialed : Bool} {r : Encoder (List Log) × Connection × Option Event}

/-- What a side writes, up to now: nothing, the header, or the handshake and the messages. -/
def Stream (d id : Text) (messages : List Text) (w : Text) : Prop :=
  messages = [] ∧ (w = [] ∨ w = Connection.hello d) ∨
    w = Connection.hello d ++ id ++ messages.flatMap frame

theorem Spoken.dialler (spoken : Spoken d my true c sent) : c.written =
    Connection.hello d ++ (if c.id.isSome then my else []) ++ sent.flatMap frame := by
  rw [spoken.text, greeting, if_pos spoken.side]

theorem Spoken.called (spoken : Spoken d my false c sent) (late : answered c.next_func = true) :
    c.written = Connection.hello d ++ my ++ sent.flatMap frame := by
  rw [spoken.text, greeting, if_neg (by rw [spoken.side]; exact Bool.false_ne_true), if_pos late]

theorem answered_of_carries {g : NextFunc} (h : carries g = true) : answered g = true := by
  cases g <;> first | rfl | cases h

theorem Spoken.stream (spoken : Spoken d my dialed c sent) : Stream d my sent c.written := by
  rw [spoken.text, greeting]
  by_cases done : c.complete = true
  · right
    rw [if_pos (spoken.known done), if_pos (answered_of_carries (spoken.stage ▸ done)), ite_self]
  · obtain ⟨none, -⟩ := spoken.early (by simpa using done)
    rw [none, List.flatMap_nil, List.append_nil]
    split_ifs
    · exact .inr (List.append_nil _).symm
    · exact .inl ⟨rfl, .inr (List.append_nil _)⟩
    · exact .inr (List.append_nil _).symm
    · exact .inl ⟨rfl, .inl rfl⟩

/-- Another function is next, and nothing is written. -/
theorem Spoken.next (spoken : Spoken d my dialed c sent) (n : ℕ) {g : NextFunc}
    (later : answered g = answered c.next_func) (done : carries g = carries c.next_func) :
    Spoken d my dialed (c.next n g) sent := by
  have same : greeting d my (c.next n g) = greeting d my c := by
    rw [greeting, greeting, ← later]
    rfl
  exact ⟨spoken.side, spoken.text.trans (by rw [same]), spoken.early, spoken.stage.trans done.symm,
    spoken.known⟩

/-- A turn writes what there is to write of the handshake. -/
theorem Spoken.turn (spoken : Spoken e.download_id e.my_id dialed c sent) (step : e.next_func c s = some r) :
    Spoken e.download_id e.my_id dialed r.2.1 sent := by
  have stage := spoken.stage
  rw [next_func] at step
  cases func : c.next_func with
  | read_header_len =>
    simp only [func, Option.ite_none_left_eq_some, Option.some.injEq] at step
    obtain ⟨-, rfl⟩ := step
    exact spoken.next _ (by rw [func]; rfl) (by rw [func]; rfl)
  | read_header =>
    simp only [func, Option.ite_none_left_eq_some, Option.some.injEq] at step
    obtain ⟨-, rfl⟩ := step
    exact spoken.next _ (by rw [func]; rfl) (by rw [func]; rfl)
  | read_reserved =>
    simp only [func, Option.some.injEq] at step
    obtain rfl := step
    exact spoken.next _ (by rw [func]; rfl) (by rw [func]; rfl)
  | read_download_id =>
    simp only [func, Option.ite_none_left_eq_some, Option.some.injEq] at step
    obtain ⟨-, rfl⟩ := step
    rw [func] at stage
    have begun : c.complete = false := stage
    obtain ⟨none, some⟩ := spoken.early begun
    have text := spoken.text
    rw [none, List.flatMap_nil, List.append_nil, greeting, func] at text
    by_cases own : c.locally_initiated = true
    · rw [if_pos own] at text
      dsimp only
      rw [if_pos own]
      refine ⟨spoken.side, ?_, fun _ => ⟨none, some⟩, begun,
        fun done => absurd (begun.symm.trans done) Bool.false_ne_true⟩
      rw [none, List.flatMap_nil, List.append_nil, greeting]
      exact text.trans (if_pos own).symm
    · rw [if_neg own] at text
      dsimp only
      rw [if_neg own]
      refine ⟨spoken.side, ?_, fun _ => ⟨none, some⟩, begun,
        fun done => absurd (begun.symm.trans done) Bool.false_ne_true⟩
      rw [none, List.flatMap_nil, List.append_nil, greeting]
      refine Eq.trans ?_ (if_neg own).symm
      exact (congrArg (· ++ _) text).trans (List.nil_append _)
  | read_peer_id =>
    simp only [func, Option.map_eq_some_iff] at step
    obtain ⟨⟨e₁, c₁⟩, read, rfl⟩ := step
    rw [func] at stage
    have begun : c.complete = false := stage
    obtain ⟨none, some⟩ := spoken.early begun
    have text := spoken.text
    rw [none, List.flatMap_nil, List.append_nil, greeting, func] at text
    have known : c₁.id.isSome ∧ c₁.written = Connection.hello e.download_id ++ e.my_id ∧
        c₁.locally_initiated = c.locally_initiated := by
      rw [read_peer_id] at read
      split_ifs at read with unknown mine twice own same <;> cases read
      · have no : c.id = Option.none := unknown.resolve_right some
        rw [if_pos own, no] at text
        exact ⟨rfl, (congrArg (· ++ _) text).trans (congrArg (· ++ _) (List.append_nil _)), rfl⟩
      · rw [if_neg own] at text
        exact ⟨rfl, text, rfl⟩
      · rw [same, Option.isSome_some, if_pos rfl] at text
        exact ⟨Option.isSome_of_eq_some same, text.trans (ite_self _), rfl⟩
    have greeted : greeting e.download_id e.my_id (c₁.setComplete.next 4 .read_len) =
        Connection.hello e.download_id ++ e.my_id := by
      have named : (c₁.setComplete.next 4 .read_len).id.isSome := known.1
      have late : answered (c₁.setComplete.next 4 .read_len).next_func = true := rfl
      rw [greeting, if_pos named, if_pos late, ite_self]
    refine ⟨known.2.2.trans spoken.side, ?_, fun no => absurd no Bool.noConfusion, rfl,
      fun _ => known.1⟩
    rw [none, List.flatMap_nil, List.append_nil, greeted]
    exact known.2.1
  | read_len =>
    simp only [func, Option.ite_none_left_eq_some, Option.some.injEq] at step
    obtain ⟨-, rfl⟩ := step
    exact spoken.next _ (by rw [func]; rfl) (by rw [func]; rfl)
  | read_message =>
    simp only [func, Option.some.injEq] at step
    obtain rfl := step
    exact spoken.next _ (by rw [func]; rfl) (by rw [func]; rfl)
  | read_dead =>
    simp only [func] at step
    cases step

/-- What a turn writes is behind what was written before. -/
theorem written_grows (step : e.next_func c s = some r) : c.written <+: r.2.1.written := by
  rw [next_func] at step
  cases func : c.next_func with
  | read_header_len =>
    simp only [func, Option.ite_none_left_eq_some, Option.some.injEq] at step
    obtain ⟨-, rfl⟩ := step
    exact List.prefix_refl _
  | read_header =>
    simp only [func, Option.ite_none_left_eq_some, Option.some.injEq] at step
    obtain ⟨-, rfl⟩ := step
    exact List.prefix_refl _
  | read_reserved =>
    simp only [func, Option.some.injEq] at step
    obtain rfl := step
    exact List.prefix_refl _
  | read_download_id =>
    simp only [func, Option.ite_none_left_eq_some, Option.some.injEq] at step
    obtain ⟨-, rfl⟩ := step
    dsimp only
    split_ifs
    · exact List.prefix_refl _
    · exact List.prefix_append _ _
  | read_peer_id =>
    simp only [func, Option.map_eq_some_iff] at step
    obtain ⟨⟨e₁, c₁⟩, read, rfl⟩ := step
    change c.written <+: c₁.written
    rw [read_peer_id] at read
    split_ifs at read <;> cases read
    · exact List.prefix_append _ _
    · exact List.prefix_refl _
    · exact List.prefix_refl _
  | read_len =>
    simp only [func, Option.ite_none_left_eq_some, Option.some.injEq] at step
    obtain ⟨-, rfl⟩ := step
    exact List.prefix_refl _
  | read_message =>
    simp only [func, Option.some.injEq] at step
    obtain rfl := step
    exact List.prefix_refl _
  | read_dead =>
    simp only [func] at step
    cases step

/-- What is kept while a connection reads: its side, and what it has written. -/
structure Kept (e : Encoder (List Log)) (h : ℕ) (dialed : Bool) (w : Text) (sent : List Text)
    (e' : Encoder (List Log)) : Prop where
  my_id : e'.my_id = e.my_id
  download_id : e'.download_id = e.download_id
  max_len : e'.max_len = e.max_len
  spoken : ∀ c, e'.connections.lookup h = some c →
    Spoken e.download_id e.my_id dialed c sent ∧ w <+: c.written

theorem receive_kept {w : Text} (kept : Kept e h dialed w sent e') (s : Text) :
    Kept e h dialed w sent (receive h e' s) := by
  refine (reader_lawful dummyConnecter h).feed_induct (P := Kept e h dialed w sent)
    (fun e' _ x kept _ _ => ?_) (fun e' kept _ => ?_) kept s
  · change Kept e h dialed w sent (store h e' x)
    rw [store]
    cases there : e'.connections.lookup h with
    | none => exact kept
    | some c =>
      refine ⟨kept.my_id, kept.download_id, kept.max_len, fun c' here => ?_⟩
      obtain ⟨spoken, more⟩ := kept.spoken c there
      rw [lookup_put, Option.some.injEq] at here
      exact here ▸ ⟨⟨spoken.side, spoken.text, spoken.early, spoken.stage, spoken.known⟩, more⟩
  · change Kept e h dialed w sent (e'.act dummyConnecter h).1
    cases there : e'.connections.lookup h with
    | none =>
      rw [act, there]
      exact kept
    | some c =>
      cases step : e'.next_func c c.buffer with
      | none =>
        have closed : (e'.act dummyConnecter h).1 = e'.close dummyConnecter h := by
          rw [act, there]
          dsimp only
          rw [step]
        rw [closed, close_dummy there]
        refine ⟨kept.my_id, kept.download_id, kept.max_len, fun c' here => ?_⟩
        rw [Finmap.lookup_erase] at here
        cases here
      | some r =>
        obtain ⟨spoken, more⟩ := kept.spoken c there
        rw [← kept.download_id, ← kept.my_id] at spoken
        have turned := spoken.turn step
        have frame := (next_func_turn step).frame
        rw [act_dummy there step, after]
        refine ⟨by rw [frame]; exact kept.my_id, by rw [frame]; exact kept.download_id,
          by rw [frame]; exact kept.max_len, fun c' here => ?_⟩
        rw [Finmap.lookup_insert, Option.some.injEq] at here
        rw [kept.download_id, kept.my_id] at turned
        exact here ▸ ⟨⟨turned.side, turned.text, turned.early, turned.stage, turned.known⟩,
          more.trans (written_grows step)⟩

/-! ### One side of a connection -/

/-- A connection that begins, to a peer with this id -/
structure Fresh (e : Encoder (List Log)) (h : ℕ) (dialed : Bool) (id : Text) : Prop where
  begun : ∃ i, e.connections.lookup h = some (.init e.download_id e.my_id i dialed) ∧
    (i = some id ∨ i = none ∧ e.hasId id = false)
  other : id ≠ e.my_id
  download_id : e.download_id.length = 20
  id : id.length = 20

/-- What is so when a stream has been read up to its end. -/
structure Heard (e : Encoder (List Log)) (h : ℕ) (id : Text) (messages : List Text) (w : Text)
    (e' : Encoder (List Log)) : Prop where
  open_ : ∃ c, e'.connections.lookup h = some c ∧
    (c.complete = true ↔ w = Connection.hello e.download_id ++ id ++ messages.flatMap frame) ∧
    (w ≠ [] → answered c.next_func = true)
  log : e'.connecter = e.connecter ++
    (if w = Connection.hello e.download_id ++ id ++ messages.flatMap frame then
      .made h :: told_of h messages else [])

theorem Fresh.read {id w : Text} {messages : List Text} (fresh : Fresh e h dialed id)
    (stream : Stream e.download_id id messages w)
    (fits : ∀ m ∈ messages, m.length < 2 ^ 32 ∧ m.length ≤ e.max_len) :
    Heard e h id messages w (receive h e w) := by
  obtain ⟨i, there, known⟩ := fresh.begun
  have size := fresh.download_id
  let f : Connection → Connection := fun c => (if c.locally_initiated then c
    else c.write (Connection.hello e.download_id ++ e.my_id)).next 20 .read_peer_id
  have same : ∀ c, (f c).id = c.id := by
    intro c
    dsimp only [f, Connection.next]
    split_ifs <;> rfl
  have quiet : (f (.init e.download_id e.my_id i dialed)).buffer = [] := by
    dsimp only [f, Connection.next]
    split_ifs <;> rfl
  have unfinished : (f (.init e.download_id e.my_id i dialed)).complete = false := by
    dsimp only [f, Connection.next]
    split_ifs <;> rfl
  have hello := receive_hello there rfl rfl rfl size
  rcases stream with ⟨rfl, rfl | rfl⟩ | rfl
  · have never : ¬ ([] : Text) = Connection.hello e.download_id ++ id ++ [].flatMap frame := nofun
    rw [receive_nil there (Nat.succ_pos 0)]
    refine ⟨⟨_, there, ⟨Bool.noConfusion, fun full => absurd full never⟩, fun some => absurd rfl some⟩, ?_⟩
    rw [if_neg never, List.append_nil]
  · have never : ¬ Connection.hello e.download_id =
        Connection.hello e.download_id ++ id ++ [].flatMap frame := by
      intro full
      have len := congrArg List.length full
      rw [List.flatMap_nil, List.append_nil, List.length_append, fresh.id] at len
      omega
    have whole := hello []
    rw [List.append_nil] at whole
    rw [whole, receive_nil lookup_put (by
      change (f (.init e.download_id e.my_id i dialed)).buffer.length < 20
      rw [quiet]
      exact Nat.succ_pos 19)]
    refine ⟨⟨_, lookup_put, ⟨fun done => ?_, fun full => absurd full never⟩, fun _ => rfl⟩, ?_⟩
    · exact absurd (unfinished.symm.trans done) Bool.false_ne_true
    · rw [if_neg never, List.append_nil]
      rfl
  · have hello' := hello (id ++ messages.flatMap frame)
    rw [List.append_assoc, hello']
    change Heard e h id messages _ (receive h (e.put h (f _)) _)
    have named : (f (.init e.download_id e.my_id i dialed)).id = i := same _
    have alone : (e.put h (f (.init e.download_id e.my_id i dialed))).hasId id = e.hasId id := by
      have changed : e.put h (f (.init e.download_id e.my_id i dialed)) = e.change h f := by
        rw [change, there]
      rw [changed]
      exact hasId_change same e h id
    obtain ⟨e', c', step, here, func, len, empty, complete, most, log⟩ :=
      receive_id (e := e.put h (f (.init e.download_id e.my_id i dialed))) lookup_put rfl rfl quiet
        fresh.id (by
          rw [named, alone]
          rcases known with is | ⟨none, new⟩
          · exact .inl is
          · exact .inr ⟨none, fresh.other, new⟩) (messages.flatMap frame)
    rw [step, receive_frames here func len empty messages (by rw [most]; exact fits)]
    refine ⟨⟨c', here, ⟨fun _ => (List.append_assoc ..).symm, fun _ => complete⟩,
      fun _ => by rw [func]; rfl⟩, ?_⟩
    rw [if_pos (List.append_assoc ..).symm]
    dsimp only
    rw [log, List.append_assoc]
    rfl

/-- The encoder, without what has been written to the connection -/
def bare (e : Encoder (List Log)) (h : ℕ) : Encoder (List Log) :=
  e.change h fun c => { c with written := [] }

theorem bare_wrote (e : Encoder (List Log)) (h : ℕ) (w : Text) : (e.wrote h w).bare h = e.bare h := by
  cases there : e.connections.lookup h with
  | none => rw [wrote, change_none there]
  | some c =>
    rw [wrote, change, there]
    exact (change_put ..).trans (by rw [bare, change, there])

theorem receive_bare (e : Encoder (List Log)) (h : ℕ) (s : Text) :
    (receive h (e.bare h) s).bare h = (receive h e s).bare h := by
  have again : ∃ w, e = (e.bare h).wrote h w := by
    cases there : e.connections.lookup h with
    | none =>
      have same : e.bare h = e := change_none there _
      exact ⟨[], by rw [same]; exact (change_none there _).symm⟩
    | some c =>
      refine ⟨c.written, ?_⟩
      rw [bare, change, there]
      refine Eq.trans ?_ (change_put ..).symm
      have same : { c with written := c.written ++ [] } = c := by rw [List.append_nil]
      exact ((congrArg (e.put h) same).trans (put_same there)).symm
  obtain ⟨w, eq⟩ := again
  have both := receive_wrote (e.bare h) h w s
  rw [← eq] at both
  rw [both, bare_wrote]

/-- Encoders that are the same but for what has been written go on so. -/
theorem receive_alike (alike : e.bare h = e'.bare h) (s : Text) :
    (receive h e s).bare h = (receive h e' s).bare h := by
  rw [← receive_bare, alike, receive_bare]

theorem bare_log (alike : e.bare h = e'.bare h) : e.connecter = e'.connecter := by
  have frame := fun e : Encoder (List Log) => change_frame e h fun c => { c with written := [] }
  have first : (e.bare h).connecter = e.connecter := by rw [bare, frame]
  have second : (e'.bare h).connecter = e'.connecter := by rw [bare, frame]
  rw [← first, alike, second]

theorem bare_lookup (alike : e.bare h = e'.bare h) (here : e'.connections.lookup h = some c') :
    ∃ c, e.connections.lookup h = some c ∧ c.complete = c'.complete ∧ c.next_func = c'.next_func := by
  have there' := lookup_change here fun c => { c with written := [] }
  change (e'.bare h).connections.lookup h = _ at there'
  rw [← alike] at there'
  cases there : e.connections.lookup h with
  | none =>
    have same : e.bare h = e := change_none there _
    rw [same, there] at there'
    cases there'
  | some c =>
    have both : (e.bare h).connections.lookup h = _ := lookup_change there _
    have eq := Option.some.inj (both.symm.trans there')
    have done := congrArg Connection.complete eq
    have func := congrArg Connection.next_func eq
    exact ⟨c, rfl, done, func⟩

/-- What is so of one side: it has read this part of the stream, and sent these messages. -/
structure Side (e₀ : Encoder (List Log)) (h : ℕ) (dialed : Bool) (stream : Text) (read : ℕ) (sent : List Text)
    (e : Encoder (List Log)) : Prop where
  alike : e.bare h = (receive h e₀ (stream.take read)).bare h
  le : read ≤ stream.length
  kept : Kept e₀ h dialed [] sent e
  open_ : ∃ c, e.connections.lookup h = some c

section Side

variable {e₀ : Encoder (List Log)} {id stream : Text} {read : ℕ} {received : List Text}

theorem Side.spoken (side : Side e₀ h dialed stream read sent e) :
    Stream e₀.download_id e₀.my_id sent (e.written h) := by
  obtain ⟨c, here⟩ := side.open_
  rw [written, here]
  exact (side.kept.spoken c here).1.stream

/-- A part of the stream of a peer leaves the connection open. -/
theorem Fresh.open_ (fresh : Fresh e₀ h dialed id) (spoken : Stream e₀.download_id id received stream)
    (fits : ∀ m ∈ received, m.length < 2 ^ 32 ∧ m.length ≤ e₀.max_len) (p q : Text)
    (cut : stream = p ++ q) : ∃ c, (receive h e₀ p).connections.lookup h = some c := by
  obtain ⟨c, last, -⟩ := (fresh.read spoken fits).open_
  refine Option.ne_none_iff_exists'.1 fun closed => ?_
  rw [cut, receive_append, receive_closed closed, closed] at last
  cases last

/-- What a side has been told is a part of what it will be told. -/
theorem Side.log (side : Side e₀ h dialed stream read sent e) (fresh : Fresh e₀ h dialed id)
    (spoken : Stream e₀.download_id id received stream)
    (fits : ∀ m ∈ received, m.length < 2 ^ 32 ∧ m.length ≤ e₀.max_len) :
    e.connecter <+: e₀.connecter ++ .made h :: told_of h received := by
  have heard := (fresh.read spoken fits).log
  rw [bare_log side.alike]
  have part := receive_log (h := h) (receive h e₀ (stream.take read)) (stream.drop read)
  rw [← receive_append, List.take_append_drop, heard] at part
  refine part.trans ?_
  split_ifs
  · exact List.prefix_refl _
  · rw [List.append_nil]
    exact List.prefix_append _ _

/-- A side that has read everything has been told of everything. -/
theorem Side.all (side : Side e₀ h dialed stream read sent e) (fresh : Fresh e₀ h dialed id)
    (spoken : Stream e₀.download_id id received stream)
    (fits : ∀ m ∈ received, m.length < 2 ^ 32 ∧ m.length ≤ e₀.max_len) (all : read = stream.length) :
    Heard e₀ h id received stream e := by
  have heard := fresh.read spoken fits
  have alike := side.alike
  rw [all, List.take_length] at alike
  obtain ⟨c', here, done, late⟩ := heard.open_
  obtain ⟨c, there, same, func⟩ := bare_lookup alike here
  exact ⟨⟨c, there, same ▸ done, func ▸ late⟩, (bare_log alike).trans heard.log⟩

theorem Side.deliver (side : Side e₀ h dialed stream read sent e) (fresh : Fresh e₀ h dialed id)
    (spoken : Stream e₀.download_id id received stream)
    (fits : ∀ m ∈ received, m.length < 2 ^ 32 ∧ m.length ≤ e₀.max_len) (k : ℕ) :
    Side e₀ h dialed stream (read + ((stream.drop read).take k).length) sent
      (receive h e ((stream.drop read).take k)) := by
  have le := side.le
  have more : read + ((stream.drop read).take k).length ≤ stream.length := by
    rw [List.length_take, List.length_drop]
    omega
  have part : stream.take (read + ((stream.drop read).take k).length) =
      stream.take read ++ (stream.drop read).take k := by
    rw [List.take_add, List.length_take, List.length_drop]
    congr 1
    rcases Nat.le_total k (stream.length - read) with less | less
    · rw [Nat.min_eq_left less]
    · rw [Nat.min_eq_right less, List.take_of_length_le (by rw [List.length_drop]),
        List.take_of_length_le (by rw [List.length_drop]; exact less)]
  have alike := receive_alike side.alike ((stream.drop read).take k)
  rw [← receive_append, ← part] at alike
  obtain ⟨c', here⟩ := fresh.open_ spoken fits _ _
    (List.take_append_drop (read + ((stream.drop read).take k).length) stream).symm
  obtain ⟨c, there, -⟩ := bare_lookup alike here
  exact ⟨alike, more, receive_kept side.kept _, ⟨c, there⟩⟩

/-- The stream that a side reads gets longer. -/
theorem Side.more {stream' : Text} (side : Side e₀ h dialed stream read sent e) (grown : stream <+: stream') :
    Side e₀ h dialed stream' read sent e := by
  obtain ⟨t, rfl⟩ := grown
  refine ⟨?_, side.le.trans (by rw [List.length_append]; omega), side.kept, side.open_⟩
  rw [List.take_append_of_le_length side.le]
  exact side.alike

theorem Side.send (side : Side e₀ h dialed stream read sent e) (ready : e.ready h) (message : Text) :
    Side e₀ h dialed stream read (sent ++ [message]) (e.send_message h message) := by
  obtain ⟨c, here, done⟩ := ready
  have changed : e.send_message h message = e.change h fun c => c.send_message message := by
    rw [send_message, change, here]
  have there : (e.send_message h message).connections.lookup h = some (c.send_message message) := by
    rw [changed]
    exact lookup_change here _
  have alike : (e.send_message h message).bare h = e.bare h := by
    rw [send_message, here]
    exact (change_put ..).trans (by rw [bare, change, here]; rfl)
  have frame := change_frame e h fun c => c.send_message message
  rw [← changed] at frame
  refine ⟨alike.trans side.alike, side.le, ⟨by rw [frame]; exact side.kept.my_id,
    by rw [frame]; exact side.kept.download_id, by rw [frame]; exact side.kept.max_len,
    fun c' here' => ?_⟩, ⟨_, there⟩⟩
  rw [there, Option.some.injEq] at here'
  obtain ⟨spoken, -⟩ := side.kept.spoken c here
  refine ⟨here' ▸ ⟨spoken.side, ?_, fun no => ?_, spoken.stage, spoken.known⟩, List.nil_prefix⟩
  · change c.written ++ (tobinary message.length ++ message) = _
    rw [spoken.text, List.flatMap_append, List.flatMap_singleton, List.append_assoc]
    rfl
  · exact absurd (done.symm.trans no) Bool.noConfusion

/-- What a side has written stays there. -/
theorem Side.written_receive (side : Side e₀ h dialed stream read sent e) (s : Text)
    (open_ : ∃ c, (receive h e s).connections.lookup h = some c) :
    e.written h <+: (receive h e s).written h := by
  obtain ⟨c, here⟩ := side.open_
  obtain ⟨c', here'⟩ := open_
  have now : Kept e₀ h dialed c.written sent e := ⟨side.kept.my_id, side.kept.download_id, side.kept.max_len,
    fun d there => by
      obtain rfl := Option.some.inj (here.symm.trans there)
      exact ⟨(side.kept.spoken c here).1, List.prefix_refl _⟩⟩
  rw [written, written, here, here']
  exact ((receive_kept now s).spoken c' here').2

theorem Side.written_send (side : Side e₀ h dialed stream read sent e) (message : Text) :
    e.written h <+: (e.send_message h message).written h := by
  obtain ⟨c, here⟩ := side.open_
  have there : (e.send_message h message).connections.lookup h = some (c.send_message message) := by
    rw [send_message, here]
    exact lookup_put
  rw [written, written, here, there]
  exact List.prefix_append _ _

end Side

end Encoder

/-! ### Both sides -/

section Link

open Encoder

variable {a₀ b₀ : Encoder (List Log)} {x y : ℕ} {l l' : Link}

/-- What is so of both sides, whatever happens. -/
structure Linked (a₀ b₀ : Encoder (List Log)) (x y : ℕ) (l : Link) : Prop where
  sideA : Side a₀ x true (l.b.written y) l.readA l.sentA l.a
  sideB : Side b₀ y false (l.a.written x) l.readB l.sentB l.b
  fitsA : ∀ m ∈ l.sentA, m.length < 2 ^ 32 ∧ m.length ≤ b₀.max_len
  fitsB : ∀ m ∈ l.sentB, m.length < 2 ^ 32 ∧ m.length ≤ a₀.max_len

/-- Two peers of one torrent, with a connection that begins -/
structure Meet (a₀ b₀ : Encoder (List Log)) (x y : ℕ) : Prop where
  same : a₀.download_id = b₀.download_id
  freshA : Fresh a₀ x true b₀.my_id
  freshB : Fresh b₀ y false a₀.my_id

theorem Linked.step (meet : Meet a₀ b₀ x y) (linked : Linked a₀ b₀ x y l) (step : Link.Step x y l l') :
    Linked a₀ b₀ x y l' := by
  obtain ⟨sideA, sideB, fitsA, fitsB⟩ := linked
  have streamA : Stream a₀.download_id b₀.my_id l.sentB (l.b.written y) := by
    rw [meet.same]
    exact sideB.spoken
  have streamB : Stream b₀.download_id a₀.my_id l.sentA (l.a.written x) := by
    rw [← meet.same]
    exact sideA.spoken
  cases step with
  | toA k =>
    have later := sideA.deliver meet.freshA streamA fitsB k
    exact ⟨later, sideB.more (sideA.written_receive _ later.open_), fitsA, fitsB⟩
  | toB k =>
    have later := sideB.deliver meet.freshB streamB fitsA k
    exact ⟨sideA.more (sideB.written_receive _ later.open_), later, fitsA, fitsB⟩
  | sendA message ready short takes =>
    rw [sideB.kept.max_len] at takes
    exact ⟨sideA.send ready message, sideB.more (sideA.written_send message), fun m mem => by
      rcases List.mem_append.1 mem with old | new
      · exact fitsA m old
      · rw [List.mem_singleton.1 new]
        exact ⟨short, takes⟩, fitsB⟩
  | sendB message ready short takes =>
    rw [sideA.kept.max_len] at takes
    exact ⟨sideA.more (sideB.written_send message), sideB.send ready message, fitsA, fun m mem => by
      rcases List.mem_append.1 mem with old | new
      · exact fitsB m old
      · rw [List.mem_singleton.1 new]
        exact ⟨short, takes⟩⟩

theorem Linked.run (meet : Meet a₀ b₀ x y) (linked : Linked a₀ b₀ x y l)
    (run : Relation.ReflTransGen (Link.Step x y) l l') : Linked a₀ b₀ x y l' := by
  induction run with
  | refl => exact linked
  | tail _ step ih => exact ih.step meet step

/-- A side that begins -/
theorem side_start {e : Encoder (List Log)} {h : ℕ} {id : Text} (fresh : Fresh e h dialed id) (stream : Text) :
    Side e h dialed stream 0 [] e := by
  obtain ⟨i, there, known⟩ := fresh.begun
  refine ⟨?_, Nat.zero_le _, ⟨rfl, rfl, rfl, fun c here => ⟨?_, List.nil_prefix⟩⟩, ⟨_, there⟩⟩
  · rw [List.take_zero, receive_nil there (Nat.succ_pos 0)]
  · obtain rfl := Option.some.inj (there.symm.trans here)
    refine ⟨rfl, ?_, fun _ => ⟨rfl, ?_⟩, rfl, fun no => absurd no Bool.false_ne_true⟩
    · rw [List.flatMap_nil, List.append_nil]
      rfl
    · change i ≠ some []
      rcases known with is | ⟨none, -⟩
      · rw [is, ne_eq, Option.some.injEq]
        intro empty
        have size := fresh.id
        rw [empty] at size
        cases size
      · rw [none]
        exact (Option.some_ne_none _).symm

theorem hasId_put {e : Encoder (List Log)} {h : ℕ} {c : Connection} {s : Text}
    (no : e.hasId s = false) (none : c.id ≠ some s) : (e.put h c).hasId s = false := by
  by_contra has
  obtain ⟨k, d, here, is⟩ := hasId_iff.1 (by simpa using has)
  by_cases own : k = h
  · rw [own, lookup_put, Option.some.injEq] at here
    exact none (here ▸ is)
  · rw [lookup_put_ne own] at here
    rw [hasId_iff.2 ⟨k, d, here, is⟩] at no
    cases no

/-- Whatever happens on the way, both connections stay open, and each connecter is told of the connection
and of the messages that the other one sent, in their order.  When everything has arrived it has been
told of all. -/
theorem messages_in_order {e f : Encoder (List Log)} {id : Option Text} (dns : Text) (x y : ℕ)
    (same : e.download_id = f.download_id) (size : e.download_id.length = 20)
    (sizeA : e.my_id.length = 20) (sizeB : f.my_id.length = 20) (other : e.my_id ≠ f.my_id)
    (newA : e.hasId f.my_id = false) (newB : f.hasId e.my_id = false)
    (room : e.connections.keys.card < e.max_initiate) (known : id = none ∨ id = some f.my_id) (l : Link)
    (run : Relation.ReflTransGen (Link.Step x y)
      ⟨e.start_connection dns id (some x), f.external_connection_made y, 0, 0, [], []⟩ l) :
    (∃ c, l.a.connections.lookup x = some c) ∧ (∃ c, l.b.connections.lookup y = some c) ∧
      l.a.connecter <+: e.connecter ++ .made x :: told_of x l.sentB ∧
      l.b.connecter <+: f.connecter ++ .made y :: told_of y l.sentA ∧
      (l.readA = (l.b.written y).length → l.readB = (l.a.written x).length →
        l.a.connecter = e.connecter ++ .made x :: told_of x l.sentB ∧
        l.b.connecter = f.connecter ++ .made y :: told_of y l.sentA) := by
  have dialed : e.start_connection dns id (some x) = e.put x (.init e.download_id e.my_id id true) := by
    unfold start_connection
    rw [if_neg, if_neg (Nat.not_le.2 room)]
    rintro ⟨some, -, mine | ⟨s, is, has⟩⟩
    · rcases known with none | theirs
      · exact some none
      · exact other (Option.some.inj (mine.symm.trans theirs))
    · rcases known with none | theirs
      · exact some none
      · rw [theirs, Option.mem_some_iff] at is
        rw [← is, newA] at has
        cases has
  rw [dialed] at run
  have meet : Meet (e.put x (.init e.download_id e.my_id id true)) (f.external_connection_made y) x y := by
    refine ⟨same, ⟨⟨id, lookup_put, ?_⟩, other.symm, size, sizeB⟩,
      ⟨⟨none, lookup_put, .inr ⟨rfl, hasId_put newB (Option.some_ne_none _).symm⟩⟩, other,
        same ▸ size, sizeA⟩⟩
    rcases known with none | theirs
    · exact .inr ⟨none, hasId_put newA (by rw [none]; exact (Option.some_ne_none _).symm)⟩
    · exact .inl theirs
  have linked := (Linked.mk (side_start meet.freshA _) (side_start meet.freshB _)
    (fun m mem => absurd mem List.not_mem_nil) (fun m mem => absurd mem List.not_mem_nil)).run meet run
  obtain ⟨sideA, sideB, fitsA, fitsB⟩ := linked
  have streamA : Stream e.download_id f.my_id l.sentB (l.b.written y) := by
    rw [same]
    exact sideB.spoken
  have streamB : Stream f.download_id e.my_id l.sentA (l.a.written x) := by
    rw [← same]
    exact sideA.spoken
  refine ⟨sideA.open_, sideB.open_, sideA.log meet.freshA streamA fitsB,
    sideB.log meet.freshB streamB fitsA, fun allA allB => ?_⟩
  have heardA := sideA.all meet.freshA streamA fitsB allA
  have heardB := sideB.all meet.freshB streamB fitsA allB
  obtain ⟨c, hereA, doneA, -⟩ := heardA.open_
  obtain ⟨d, hereB, -, lateB⟩ := heardB.open_
  have spokenA := (sideA.kept.spoken c hereA).1
  have spokenB := (sideB.kept.spoken d hereB).1
  -- The dialler has written the header, so the other side has answered it, and so on.
  have textA : l.a.written x = c.written := by rw [written, hereA]; rfl
  have textB : l.b.written y = d.written := by rw [written, hereB]; rfl
  have late := lateB (by rw [textA, spokenA.dialler]; exact nofun)
  have fullB : l.b.written y = Connection.hello e.download_id ++ f.my_id ++ l.sentB.flatMap frame := by
    rw [textB, same]
    exact spokenB.called late
  have fullA : l.a.written x = Connection.hello f.download_id ++ e.my_id ++ l.sentA.flatMap frame := by
    rw [textA, spokenA.dialler, if_pos (spokenA.known (doneA.2 fullB)), ← same]
    rfl
  exact ⟨heardA.log.trans (congrArg _ (if_pos fullB)), heardB.log.trans (congrArg _ (if_pos fullA))⟩

/-- A peer of the tests, that has this id -/
def peer (id : Char) : Encoder (List Log) :=
  ⟨[], List.replicate 20 id, List.replicate 20 'd', 500, 40, false, ∅, []⟩

/-- A whole handshake, and a message of the dialler -/
theorem messages_in_order_first :
    ∃ l : Link, l.a.connecter = [.made 0] ∧ l.b.connecter = [.made 1, .got 1 ['m']] := by
  obtain ⟨-, -, -, -, all⟩ := messages_in_order (e := peer 'a') (f := peer 'b') "dns".toList 0 1 rfl rfl
    rfl rfl (by decide) rfl rfl (by decide) (.inl rfl) _
    (((((Relation.ReflTransGen.refl.tail (.toB _ 100)).tail (.toA _ 100)).tail (.toB _ 100)).tail
      (.sendA _ ['m'] ⟨_, rfl, rfl⟩ (by decide) (by decide))).tail (.toB _ 100))
  exact ⟨_, all rfl rfl⟩

end Link

end Ydfs.BitTorrent
