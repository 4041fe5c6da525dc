import EspDevkit.Crypto.Tls.Reading

/-!
# However the transport splits the bytes

A driver passes the peer's bytes on in pieces of any size, reads into any room and sends
what waits at any time.
-/

namespace EspDevkit.Crypto.Tls

open List

open X509 (Bytes)
open Fallible

variable {prim : Primitives} {c c' : Inner prim}

/-- A connection with the bytes of a peer: those not passed on yet, what was read, and what
was sent to the peer. -/
structure Delivery (prim : Primitives) where
  conn : Inner prim
  input : Bytes
  output : Bytes
  sent : Bytes

inductive Feed
  /-- Writes up to so many bytes to `rx_space` and commits them. -/
  | commit (n : ℕ)
  /-- Passes so many bytes to `receive`, which takes those that fit. -/
  | receive (n : ℕ)
  | read (room : ℕ)
  /-- Sends up to so many bytes of `pending_tx` and consumes them. -/
  | send (n : ℕ)

def given : Except (Stop Error) Bytes → Bytes
  | .ok data => data
  | .error _ => []

def Delivery.step (d : Delivery prim) : Feed → Delivery prim
  | .commit n =>
    let taken := min n d.conn.rxSpace
    { d with conn := (commitRx (d.input.take taken) d.conn).2, input := d.input.drop taken }
  | .receive n =>
    let data := d.input.take n
    { d with
      conn := (receive data d.conn).2
      input := d.input.drop (min d.conn.rxSpace data.length) }
  | .read room =>
    { d with
      conn := (read room d.conn).2
      output := d.output ++ given (read room d.conn).1 }
  | .send n =>
    { d with
      conn := (consumeTx n d.conn).2
      sent := d.sent ++ d.conn.session.tx.take n }

def Delivery.run (d : Delivery prim) (feeds : List Feed) : Delivery prim :=
  feeds.foldl Delivery.step d

/-- What a driver sees of a connection: the data read, the error that ended it, whether the
peer closed it, and the bytes that were put in `pending_tx`. -/
def Delivery.seen (d : Delivery prim) : Bytes × Option Error × Bool × Bytes :=
  (d.output, d.conn.session.failed, d.conn.session.peerClosed, d.sent ++ d.conn.session.tx)

/-- The peer's bytes are passed on, as far as the connection takes any, and one more read
changes nothing. -/
def Delivery.Complete (d : Delivery prim) : Prop :=
  (d.input = [] ∨ d.conn.session.failed ≠ none ∨ d.conn.session.peerClosed = true) ∧
    (d.step (.read 1)).seen = d.seen

instance (d : Delivery prim) : Decidable d.Complete :=
  inferInstanceAs (Decidable (_ ∧ _))

/-- Nothing waits to be read, and nothing ended the connection. -/
structure Inner.Works (c : Inner prim) : Prop where
  idle : ¬c.waiting
  runs : c.session.failed = none
  stays : ¬c.session.peerClosed

/-- The data that is read of a connection until its buffer holds no whole record, and the
session that this leaves. -/
inductive Drains : Inner prim → Bytes → Session prim → Prop
  | failed {c : Inner prim} : ¬c.waiting → c.session.failed ≠ none → Drains c [] c.session
  | closed {c : Inner prim} : ¬c.waiting → c.session.failed = none → c.session.peerClosed →
      Drains c [] c.session
  | short {c : Inner prim} : c.Works → nextRecord c = (.ok false, c) → Drains c [] c.session
  | stops {c c' : Inner prim} {f : Fatal} : c.Works → nextRecord c = (.error (.error f), c') →
      Drains c [] (c'.session.fail f)
  | takes {c c' : Inner prim} {data : Bytes} {s : Session prim} : c.Works →
      nextRecord c = (.ok true, c') → Drains c' data s → Drains c data s
  | reads {c : Inner prim} {data : Bytes} {s : Session prim} : c.waiting →
      Drains c.dropped data s → Drains c (c.content ++ data) s

theorem Drains.unique {data data' : Bytes} {s s' : Session prim} (first : Drains c data s)
    (second : Drains c data' s') : data = data' ∧ s = s' := by
  induction first generalizing data' s' with
  | failed idle fails =>
    cases second with
    | failed _ _ => exact ⟨rfl, rfl⟩
    | closed _ runs _ => exact absurd runs fails
    | short works _ => exact absurd works.runs fails
    | stops works _ => exact absurd works.runs fails
    | takes works _ _ => exact absurd works.runs fails
    | reads waits _ => exact absurd waits idle
  | closed idle runs closes =>
    cases second with
    | failed _ fails => exact absurd runs fails
    | closed _ _ _ => exact ⟨rfl, rfl⟩
    | short works _ => exact absurd closes works.stays
    | stops works _ => exact absurd closes works.stays
    | takes works _ _ => exact absurd closes works.stays
    | reads waits _ => exact absurd waits idle
  | short works result =>
    cases second with
    | failed _ fails => exact absurd works.runs fails
    | closed _ _ closes => exact absurd closes works.stays
    | short _ _ => exact ⟨rfl, rfl⟩
    | stops _ result' => cases result.symm.trans result'
    | takes _ result' _ => cases result.symm.trans result'
    | reads waits _ => exact absurd waits works.idle
  | stops works result =>
    cases second with
    | failed _ fails => exact absurd works.runs fails
    | closed _ _ closes => exact absurd closes works.stays
    | short _ result' => cases result.symm.trans result'
    | stops _ result' =>
      cases result.symm.trans result'
      exact ⟨rfl, rfl⟩
    | takes _ result' _ => cases result.symm.trans result'
    | reads waits _ => exact absurd waits works.idle
  | takes works result _ ih =>
    cases second with
    | failed _ fails => exact absurd works.runs fails
    | closed _ _ closes => exact absurd closes works.stays
    | short _ result' => cases result.symm.trans result'
    | stops _ result' => cases result.symm.trans result'
    | takes _ result' rest =>
      cases result.symm.trans result'
      exact ih rest
    | reads waits _ => exact absurd waits works.idle
  | reads waits _ ih =>
    cases second with
    | failed idle _ => exact absurd waits idle
    | closed idle _ _ => exact absurd waits idle
    | short works _ => exact absurd waits works.idle
    | stops works _ => exact absurd waits works.idle
    | takes works _ _ => exact absurd waits works.idle
    | reads _ rest =>
      obtain ⟨rfl, rfl⟩ := ih rest
      exact ⟨rfl, rfl⟩

theorem Drains.rest {c : Inner prim} {data : Bytes} {s : Session prim} (drains : Drains c data s)
    (waits : c.waiting) : ∃ rest, data = c.content ++ rest ∧ Drains c.dropped rest s := by
  cases drains with
  | failed idle _ => exact absurd waits idle
  | closed idle _ _ => exact absurd waits idle
  | short works _ => exact absurd waits works.idle
  | stops works _ => exact absurd waits works.idle
  | takes works _ _ => exact absurd waits works.idle
  | reads _ drains => exact ⟨_, rfl, drains⟩

def Inner.within (bytes sent : Bytes) (c : Inner prim) : Inner prim := (c.more bytes).after sent

variable {bytes sent data : Bytes} {s : Session prim}

theorem Inner.Works.within (works : c.Works) : (c.within bytes sent).Works :=
  ⟨works.idle, works.runs, works.stays⟩

theorem nextRecord_within (progress : c.session.Progress) (whole : nextRecord c ≠ (.ok false, c)) :
    nextRecord (c.within bytes sent) =
      ((nextRecord c).1, (nextRecord c).2.within bytes sent) := by
  have later : Commutes (Inner.more bytes) nextRecord c := (nextRecord_more progress).resolve_left whole
  have before : Commutes (Inner.after sent) nextRecord (c.more bytes) := nextRecord_after
  unfold Commutes at later before
  unfold Inner.within
  rw [before, later]

theorem processLoop_drains {fuel : ℕ} (sound : c.Sound) (runs : c.session.failed = none)
    (drains : Drains ((processLoop fuel c).2.within bytes sent) data s) :
    Drains (c.within bytes sent) data s := by
  induction fuel generalizing c with
  | zero => exact drains
  | succ fuel ih =>
    unfold processLoop at drains
    by_cases done : c.waiting ∨ c.session.peerClosed
    · simp only [done, if_true] at drains
      exact drains
    · simp only [done, if_false] at drains
      rw [not_or] at done
      have progress := sound.progress runs
      have works : c.Works := ⟨done.1, runs, done.2⟩
      have idle := Inner.not_waiting sound done.1
      have step := (nextRecord_ensures progress idle).apply
      rcases result : nextRecord c with ⟨r, c'⟩
      rw [result] at drains step
      rcases step with ⟨more, rfl, left⟩ | ⟨f, rfl, -, -, idle'⟩
      · cases more with
        | false =>
          obtain rfl : c' = c := left
          exact drains
        | true =>
          have took : Took c c' := left
          have same : nextRecord (c.within bytes sent) = _ :=
            nextRecord_within progress (by rw [result]; nofun)
          rw [result] at same
          exact .takes works.within same (ih took.sound (took.failed.trans runs) drains)
      · have same : nextRecord (c.within bytes sent) = _ :=
          nextRecord_within progress (by rw [result]; nofun)
        rw [result] at same
        have fails : (c'.session.fail f).failed ≠ none := (Session.fail_spec f).2.1
        have quiet : ¬c'.waiting := Inner.Idle.not_waiting idle'
        obtain ⟨rfl, rfl⟩ := drains.unique (.failed quiet fails)
        have stops := Drains.stops works.within same
        rw [show (c'.within bytes sent).session.fail f = (c'.session.fail f).after sent from
          after_fail] at stops
        exact stops

theorem process_drains (sound : c.Sound)
    (drains : Drains ((process c).2.within bytes sent) data s) :
    Drains (c.within bytes sent) data s := by
  cases failed : c.session.failed with
  | none =>
    rw [process_runs failed] at drains
    exact processLoop_drains sound failed drains
  | some e =>
    rw [process_failed failed] at drains
    exact drains

theorem content_within (inside : c.app.2.1 ≤ c.rx.length) :
    (c.within bytes sent).content = c.content := by
  show ((c.rx ++ bytes).take c.app.2.1).drop c.app.1 = _
  rw [take_append_of_le_length inside]
  rfl

theorem dropped_within (inside : c.app.2.2 ≤ c.rx.length) :
    (c.within bytes sent).dropped = c.dropped.within bytes sent := by
  unfold Inner.dropped Inner.within Inner.more Inner.after
  simp only [drop_append_of_le_length inside]

theorem copyOut_drains {room : ℕ} (sound : c.Sound)
    (drains : Drains ((copyOut room c).2.within bytes sent) data s) :
    Drains (c.within bytes sent) (given (copyOut room c).1 ++ data) s := by
  rcases sound.data with idle | pending
  · rw [copyOut_idle idle] at drains ⊢
    exact drains
  · have content := pending.content
    have record := pending.record
    rw [copyOut_pending pending] at drains ⊢
    dsimp only [given] at drains ⊢
    have waits : (c.within bytes sent).waiting := pending.waiting
    have inside : (c.within bytes sent).content = c.content :=
      content_within (content.trans record)
    split at drains
    · next all =>
        have whole : c.content.length ≤ min room c.content.length := by
          have some := pending.some
          have length : c.content.length ≤ c.app.2.1 - c.app.1 := by
            unfold Inner.content
            rw [length_drop, length_take]
            omega
          omega
        rw [take_of_length_le whole, ← inside]
        rw [← dropped_within record] at drains
        exact .reads waits drains
    · next part =>
        generalize taken : min room c.content.length = n at part drains ⊢
        let left : Inner prim := { c with app := (c.app.1 + n, c.app.2.1, c.app.2.2) }
        have waits' : (left.within bytes sent).waiting := by
          simpa [left, Inner.waiting, Inner.within, Inner.more, Inner.after] using part
        obtain ⟨rest, rfl, dropped⟩ := Drains.rest drains waits'
        have inside' : (left.within bytes sent).content = left.content :=
          content_within (content.trans record)
        rw [← append_assoc, inside', content_rest, ← inside]
        exact .reads waits dropped

theorem ready_drains (sound : c.Sound) (drains : Drains (c.ready.within bytes sent) data s) :
    Drains (c.within bytes sent) data s := by
  unfold Inner.ready at drains
  by_cases waits : c.waiting
  · rw [ready_waiting waits] at drains
    exact drains
  · rw [ready_idle waits] at drains
    exact process_drains sound drains

theorem read_drains {room : ℕ} (sound : c.Sound)
    (drains : Drains ((read room c).2.within bytes sent) data s) :
    Drains (c.within bytes sent) (given (read room c).1 ++ data) s := by
  apply ready_drains sound
  rcases read_cases room sound with ⟨-, -, e, stops⟩ | ⟨-, copies⟩
  · rw [stops] at drains ⊢
    exact drains
  · rw [copies] at drains ⊢
    exact copyOut_drains (ready_sound sound) drains

theorem read_nothing (sound : c.Sound) (nothing : given (read 1 c).1 = []) :
    ¬(read 1 c).2.waiting ∧ ((read 1 c).2.session.failed ≠ none ∨
      (read 1 c).2.session.peerClosed ∨ nextRecord (read 1 c).2 = (.ok false, (read 1 c).2)) := by
  rcases read_cases 1 sound with ⟨idle, failed, e, stops⟩ | ⟨rests, copies⟩
  · rw [stops]
    exact ⟨idle, .inl failed⟩
  · rcases (ready_sound sound).data with idle | pending
    · rw [copies, copyOut_idle idle]
      have waits := Inner.Idle.not_waiting idle
      exact ⟨waits, .inr (rests.resolve_left waits)⟩
    · rw [copies, copyOut_pending pending] at nothing
      have some := pending.some
      have length := length_content pending
      have := congrArg List.length nothing
      simp only [given, length_take, length_nil] at this
      omega

/-- The connection as if all bytes were passed on at once and none were sent. -/
def Delivery.whole (d : Delivery prim) : Inner prim := d.conn.within d.input d.sent

variable {d : Delivery prim}

theorem step_sound (sound : d.conn.Sound) (feed : Feed) : (d.step feed).conn.Sound := by
  cases feed with
  | commit n =>
    rcases (commitRx_ensures sound).apply with ⟨_, -, keeps⟩ | ⟨_, -, keeps⟩
    · exact keeps.1
    · exact keeps.1
  | receive n =>
    rcases (receive_ensures sound).apply with ⟨_, -, keeps⟩ | ⟨_, -, keeps⟩
    · exact keeps.1
    · exact keeps.1
  | read room =>
    rcases (read_ensures sound).apply with ⟨_, -, gives⟩ | ⟨_, -, keeps⟩
    · exact gives.1
    · exact keeps.1
  | send n => exact (sound.wrote ⟨_, _, rfl⟩).1

theorem whole_commit {taken rest : Bytes} (sound : d.conn.Sound)
    (parts : taken.take d.conn.rxSpace ++ rest = d.input)
    (drains : Drains ((commitRx taken d.conn).2.within rest d.sent) data s) :
    Drains d.whole data s := by
  have arrives := process_drains (sound.arrive (taken.take d.conn.rxSpace)) drains
  have place : (d.conn.more (taken.take d.conn.rxSpace)).within rest d.sent = d.whole := by
    unfold Delivery.whole Inner.within
    rw [more_more, parts]
  exact place ▸ arrives

theorem step_drains {feed : Feed} (sound : d.conn.Sound)
    (drains : Drains (d.step feed).whole data s) :
    ∃ more, (d.step feed).output = d.output ++ more ∧ Drains d.whole (more ++ data) s := by
  cases feed with
  | commit n =>
    refine ⟨[], (append_nil _).symm, whole_commit sound ?_ drains⟩
    rw [take_take, Nat.min_eq_right (Nat.min_le_right _ _)]
    exact take_append_drop _ _
  | receive n =>
    unfold Delivery.step Delivery.whole at drains
    dsimp only at drains
    rw [receive_snd] at drains
    refine ⟨[], (append_nil _).symm, whole_commit sound ?_ drains⟩
    have same : (d.input.take n).take d.conn.rxSpace =
        d.input.take (min d.conn.rxSpace (d.input.take n).length) := by
      rw [take_take, take_eq_take_iff, length_take]
      omega
    rw [same]
    exact take_append_drop _ _
  | read room => exact ⟨_, rfl, read_drains sound drains⟩
  | send n =>
    refine ⟨[], (append_nil _).symm, ?_⟩
    have place : (d.step (.send n)).whole = d.whole := by
      show Inner.within d.input (d.sent ++ d.conn.session.tx.take n)
        { d.conn with session := { d.conn.session with tx := d.conn.session.tx.drop n } } = d.whole
      unfold Delivery.whole Inner.within Inner.more Inner.after Session.after
      simp only [append_assoc, take_append_drop]
    exact place ▸ drains

theorem run_drains {feeds : List Feed} (sound : d.conn.Sound)
    (drains : Drains (d.run feeds).whole data s) :
    ∃ more, (d.run feeds).output = d.output ++ more ∧ Drains d.whole (more ++ data) s := by
  induction feeds generalizing d with
  | nil => exact ⟨[], (append_nil _).symm, drains⟩
  | cons feed feeds ih =>
    obtain ⟨more, output, drains⟩ := ih (step_sound sound feed) drains
    obtain ⟨first, output', drains⟩ := step_drains sound drains
    refine ⟨first ++ more, ?_, ?_⟩
    · show ((d.step feed).run feeds).output = _
      rw [output, output', append_assoc]
    · rw [append_assoc]
      exact drains

theorem run_sound (sound : d.conn.Sound) (feeds : List Feed) : (d.run feeds).conn.Sound := by
  induction feeds generalizing d with
  | nil => exact sound
  | cons feed feeds ih => exact ih (step_sound sound feed)

/-- What is seen of a connection whose bytes are all handled is what they come to at once. -/
theorem complete_drains (sound : d.conn.Sound) (complete : d.Complete) :
    ∃ s, d.seen = (d.output, s.failed, s.peerClosed, s.tx) ∧
      Drains (d.step (.read 1)).whole [] s ∧ (d.step (.read 1)).output = d.output := by
  obtain ⟨passed, same⟩ := complete
  have output : d.output ++ given (read 1 d.conn).1 = d.output := congrArg Prod.fst same
  have failed : (read 1 d.conn).2.session.failed = d.conn.session.failed :=
    congrArg (fun seen => seen.2.1) same
  have closed : (read 1 d.conn).2.session.peerClosed = d.conn.session.peerClosed :=
    congrArg (fun seen => seen.2.2.1) same
  have nothing : given (read 1 d.conn).1 = [] := by simpa using output
  obtain ⟨idle, ends⟩ := read_nothing sound nothing
  refine ⟨(d.step (.read 1)).whole.session, same.symm.trans ?_, ?_, output⟩
  · show (_, _, _, _) = (_, _, _, _)
    rw [show (d.step (.read 1)).output = d.output from output]
    rfl
  have idle' : ¬(d.step (.read 1)).whole.waiting := idle
  by_cases runs : (read 1 d.conn).2.session.failed = none
  · by_cases stays : (read 1 d.conn).2.session.peerClosed
    · exact .closed idle' runs stays
    · have waits : nextRecord (read 1 d.conn).2 = (.ok false, (read 1 d.conn).2) :=
        (ends.resolve_left (not_not_intro runs)).resolve_left stays
      have empty : d.input = [] := by
        rcases passed with empty | fails | closes
        · exact empty
        · exact absurd (failed ▸ runs) fails
        · exact absurd (closed.trans closes) stays
      have place : (d.step (.read 1)).whole = (read 1 d.conn).2.after d.sent := by
        show Inner.within d.input d.sent (read 1 d.conn).2 = _
        rw [empty]
        unfold Inner.within
        rw [more_nil]
      have after : Commutes (Inner.after d.sent) nextRecord (read 1 d.conn).2 := nextRecord_after
      unfold Commutes at after
      rw [waits] at after
      refine .short ⟨idle', runs, stays⟩ ?_
      rw [place]
      exact after
  · exact .failed idle' runs

def Delivery.start (conn : Inner prim) (input : Bytes) : Delivery prim :=
  { conn, input, output := [], sent := [] }

/-- Any two ways to pass on the same bytes of a peer come to the same data, error, closing
and bytes to send; and a connection that nothing ended has room for more of its bytes, or
has it once the data that waits is read. -/
theorem splits_agree {config : Config prim} {serverName : Option Bytes} {sessionId random : Bytes}
    {start : Inner prim} (begins : client config serverName sessionId random = .ok start) :
    (∀ input feeds feeds',
      ((Delivery.start start input).run feeds).Complete →
        ((Delivery.start start input).run feeds').Complete →
          ((Delivery.start start input).run feeds).seen =
            ((Delivery.start start input).run feeds').seen) ∧
      ∀ calls, (start.run calls).session.failed = none →
        (start.run calls).session.peerClosed = false →
          0 < (start.run calls).rxSpace ∨
            ((start.run calls).waiting ∧ ∀ room, (start.run calls).content.length ≤ room →
              (read room (start.run calls)).1 = .ok (start.run calls).content ∧
                0 < (read room (start.run calls)).2.rxSpace) := by
  have sound := client_sound begins
  constructor
  · intro input feeds feeds' complete complete'
    have comes : ∀ feeds, ((Delivery.start start input).run feeds).Complete →
        ∃ s, ((Delivery.start start input).run feeds).seen =
            (((Delivery.start start input).run feeds).output, s.failed, s.peerClosed, s.tx) ∧
          Drains (Delivery.start start input).whole
            ((Delivery.start start input).run feeds).output s := by
      intro feeds complete
      have sound' := run_sound (d := Delivery.start start input) sound feeds
      obtain ⟨s, seen, drains, output⟩ := complete_drains sound' complete
      have last : ((Delivery.start start input).run feeds).step (.read 1) =
          (Delivery.start start input).run (feeds ++ [.read 1]) := by
        unfold Delivery.run
        rw [foldl_append]
        rfl
      rw [last] at drains output
      obtain ⟨more, output', drains⟩ := run_drains (d := Delivery.start start input) sound drains
      rw [output] at output'
      rw [append_nil] at drains
      have all : ((Delivery.start start input).run feeds).output = more := output'
      exact ⟨s, seen, all ▸ drains⟩
    obtain ⟨s, seen, drains⟩ := comes feeds complete
    obtain ⟨s', seen', drains'⟩ := comes feeds' complete'
    obtain ⟨output, rfl⟩ := drains.unique drains'
    rw [seen, seen', output]
  · intro calls runs stays
    obtain ⟨sound', -⟩ := sound.run calls
    rcases Inner.Roomy.run sound (client_roomy begins) calls with failed | ⟨fits, waits | closed | room⟩
    · exact absurd runs failed
    · exact .inr ⟨waits, fun room enough => read_makes_room sound' waits fits enough⟩
    · rw [stays] at closed
      cases closed
    · exact .inl (Nat.sub_pos_of_lt room)

theorem splits_agree_greeting :
    ∃ start, client anyServer none (List.replicate 32 5) (List.replicate 32 6) = .ok start ∧
      ((Delivery.start start greeting).run [.receive 400, .read 9]).output = [0x68, 0x69] ∧
        ((Delivery.start start greeting).run [.receive 400, .read 9]).seen =
          ((Delivery.start start greeting).run
            [.commit 3, .receive 9, .send 30, .receive 300, .read 1, .send 5, .commit 90, .read 1]).seen := by
  obtain ⟨start, begins, output, complete, complete'⟩ : ∃ start,
      client anyServer none (List.replicate 32 5) (List.replicate 32 6) = .ok start ∧
        ((Delivery.start start greeting).run [.receive 400, .read 9]).output = [0x68, 0x69] ∧
        ((Delivery.start start greeting).run [.receive 400, .read 9]).Complete ∧
          ((Delivery.start start greeting).run
            [.commit 3, .receive 9, .send 30, .receive 300, .read 1, .send 5, .commit 90, .read 1]).Complete :=
    ⟨_, rfl, by decide +kernel, by decide +kernel, by decide +kernel⟩
  exact ⟨start, begins, output, (splits_agree begins).1 greeting _ _ complete complete'⟩

end EspDevkit.Crypto.Tls
