import EspDevkit.Net.ListenerQueues

/-!
# Listeners and their connections

What the stack does with its sockets keeps the queues of its listeners in order, over any
order of segments, timers, calls, accepts and reuse of slots.
-/

namespace EspDevkit.Net

open SlotTable List Option

namespace Stack

variable {Link : Type} [TcpHost Link]

theorem sendTcp_same (stack : Stack Link) (tcb : Tcb) (seq : Seq) (flags : Flags)
    (offset len : ℕ) (now : Instant) :
    Same stack (sendTcp stack tcb seq flags offset len now).1 := by
  have sent : Same stack (TcpHost.sendIpv4 (TcpHost.observe stack tcb.windowCall)
      (tcb.window.1.datagram seq flags offset len tcb.window.2) now).1 := ⟨rfl, rfl, rfl⟩
  unfold sendTcp
  dsimp only
  generalize TcpHost.sendIpv4 (TcpHost.observe stack tcb.windowCall) _ now = result at sent ⊢
  split <;> exact sent

namespace Minds

variable {first second : Stack Link × Tcb}

theorem of_speaks (speaks : Speaks first second) : Minds first second := by
  refine ⟨?_, speaks.listener, speaks.opening⟩
  induction speaks with
  | refl => exact .refl _
  | quiet _ _ ih => exact ih
  | send _ seq flags offset len now _ ih =>
    exact ih.trans (sendTcp_same _ _ seq flags offset len now)
  | reset _ _ _ _ _ _ ih => exact ih.trans ⟨rfl, rfl, rfl⟩
  | look _ _ ih => exact ih.trans ⟨rfl, rfl, rfl⟩

theorem of_takes {seg : Segment} {now : Instant} (takes : Takes first seg now second) :
    Minds first second := by
  obtain ⟨stack, tcb, tcb', before, taken, after⟩ := takes
  have kept : Minds (stack, tcb) (stack, tcb') := by
    rcases taken with rfl | rfl
    · exact .refl _
    · obtain ⟨-, -, listener, opening⟩ := takeData_frame tcb now (TcpHost.fits stack) seg
      exact ⟨.refl _, listener, opening⟩
  exact (of_speaks before).trans (kept.trans (of_speaks after))

end Minds

namespace Kept

variable {stack after : Stack Link} {id l : ℕ} {tcb tcb' : Tcb}

theorem add (kept : Kept stack none) (now : Instant)
    (fresh : tcb.listener = none ∨ tcb.state ≠ .synSent ∧ ∃ l listener, tcb.listener = some l ∧
      stack.listener l = some listener ∧ stack.pending l < listener.backlog) :
    Kept (stack.addTcb tcb now).1 none :=
  (kept.place fresh).works (place_spec stack.tcbs tcb).2.1 rfl
    (.of_speaks (tcpOutput_speaks _ tcb now))

theorem process (kept : Kept stack none) (known : stack.tcb id = some tcb) (seg : Segment)
    (now : Instant) :
    Kept (stack.withTcb id (quietly fun stack tcb => tcpProcess stack id tcb seg now)).1 none := by
  have heard : Quiet tcb { tcb with heard := now, keepaliveProbes := 0 } := .still rfl rfl
  have inside := lt_of_lookup known
  have held : Kept (stack.putTcb id (some { tcb with heard := now, keepaliveProbes := 0 })) none :=
    kept.put known (.inl (congrArg Frame.listener heard.frame)) fun _ => heard.opening
  suffices result : ∀ tcb, Kept (stack.putTcb id (some tcb)) none →
      ∃ after tcb', tcpReceive (stack.putTcb id none) id tcb seg now = (after, tcb') ∧
        after.tcbs = stack.tcbs.set id none ∧ Kept (after.putTcb id (some tcb')) none by
    obtain ⟨after, tcb', acts, slot, kept'⟩ := result _ held
    have acts' : quietly (fun stack tcb => tcpProcess stack id tcb seg now)
        (stack.putTcb id none) tcb = (after, tcb', ()) :=
      congrArg (fun result => (result.1, result.2, ())) acts
    exact withTcb known acts' slot kept' (.inl rfl)
  clear known held heard kept
  intro tcb kept
  have known : (stack.putTcb id (some tcb)).tcb id = some tcb := lookup_set_self inside _
  refine ⟨(tcpReceive (stack.putTcb id none) id tcb seg now).1,
    (tcpReceive (stack.putTcb id none) id tcb seg now).2, rfl, ?_⟩
  by_cases opening : tcb.state = .synSent
  · unfold tcpReceive
    rw [if_pos opening]
    rcases tcpSynSent_speaks (stack.putTcb id none) tcb now seg with
      speaks | ⟨tcb', -, listener, -, speaks⟩
    · exact kept.mind inside (.of_speaks speaks)
    · have alone : tcb.listener = none := by
        by_contra mine
        exact kept.opened known mine opening
      have begun := kept.put known (.inl listener) fun mine => absurd (listener.trans alone) mine
      have twice : (stack.putTcb id (some tcb)).putTcb id (some tcb') =
          stack.putTcb id (some tcb') := by
        simp only [putTcb, set_set]
      rw [twice] at begun
      exact begun.mind inside (.of_speaks speaks)
  · rcases tcpReceive_takes (stack.putTcb id none) tcb now id seg opening with
      ⟨raw, takes⟩ | ⟨received, raw, tcb', quiet, state, takes⟩
    · exact kept.mind inside (.of_takes takes)
    · cases mine : tcb.listener with
      | none =>
        rw [mine] at takes
        exact kept.mind inside ((Minds.of_quiet quiet).trans (.of_takes takes))
      | some l =>
        rw [mine] at takes
        obtain ⟨listener, placed⟩ := isSome_iff_exists.mp
          ((kept.known known mine).resolve_right (by rintro ⟨⟩))
        have out : id ∉ listener.ready := fun mem => by
          obtain ⟨other, placed', -, left⟩ := kept.ready placed id mem
          have same : other = tcb := Option.some.inj (placed'.symm.trans known)
          exact left (same ▸ received)
        have listener' : tcb'.listener = tcb.listener := congrArg Frame.listener quiet.frame
        have begun := kept.put known (.inl listener') fun _ => quiet.opening
        have twice : (stack.putTcb id (some tcb)).putTcb id (some tcb') =
            stack.putTcb id (some tcb') := by
          simp only [putTcb, set_set]
        rw [twice] at begun
        have placed' : (stack.putTcb id (some tcb')).listener l = some listener := placed
        have once : (listener.ready ++ [id]).Nodup := by
          refine nodup_append.mpr ⟨kept.once placed, nodup_singleton id, ?_⟩
          rintro other mem last final rfl
          cases mem_singleton.mp final
          exact out mem
        have pushed : Kept ((stack.putListener l
            (some { listener with ready := listener.ready ++ [id] })).putTcb id (some tcb'))
            none := by
          refine begun.putReady placed' once fun other mem => ?_
          rcases mem_append.mp mem with waits | last
          · exact begun.ready placed' other waits
          · cases mem_singleton.mp last
            exact ⟨tcb', lookup_set_self inside _, listener'.trans mine, by rw [state]; decide⟩
        have told : TcpHost.ready (stack.putTcb id none) l id = (stack.putListener l
            (some { listener with ready := listener.ready ++ [id] })).putTcb id none := by
          have held : (stack.putTcb id none).listener l = some listener := placed
          simp only [TcpHost.ready, held]
          rfl
        change Takes (TcpHost.ready (stack.putTcb id none) l id, tcb') raw now _ at takes
        rw [told] at takes
        exact pushed.mind inside (.of_takes takes)

theorem passiveOpen (kept : Kept stack none) (network : Network) (iss : Seq) {l : ℕ}
    (there : (stack.listener l).isSome) (localAddr remoteAddr : SocketAddrV4) (seg : Segment)
    (now : Instant) :
    Kept (stack.tcpPassiveOpen network iss l localAddr remoteAddr seg now) none := by
  obtain ⟨listener, known⟩ := isSome_iff_exists.mp there
  unfold tcpPassiveOpen
  rw [known]
  dsimp only
  split
  · exact kept
  · next room =>
      split
      · exact kept
      · exact kept.add now (.inr ⟨by simp [Tcb.accepting, Tcb.onSyn, Tcb.new], l, listener, rfl,
          known, by omega⟩)

theorem connect (kept : Kept stack none) (network : Network) (random : ℕ) (iss : Seq)
    (localPort : Option (BitVec 16)) (remote : SocketAddrV4) (buffers : Buffers) (now : Instant) :
    Kept (stack.tcpConnectFrom network random iss localPort remote buffers now).1 none := by
  unfold tcpConnectFrom
  split
  · split
    · exact kept
    · exact kept.add now (.inl rfl)
  · exact kept

theorem input (kept : Kept stack none) (network : Network) (iss : Seq) (src dst : Ipv4Addr)
    (unicast : Bool) (seg : Segment) (now : Instant) :
    Kept (stack.tcpInput network iss src dst unicast seg now) none := by
  unfold tcpInput
  split
  · exact kept
  · dsimp only
    split
    · next found =>
        obtain ⟨tcb, known⟩ := lookup_of_findIdx found
        exact kept.process known seg now
    · split
      · next l found =>
          have found : stack.listening dst seg.dstPort = some l := by
            split at found
            · exact found
            · cases found
          obtain ⟨listener, known⟩ := lookup_of_findIdx found
          exact kept.passiveOpen network iss (isSome_iff_exists.mpr ⟨listener, known⟩) _ _
            seg now
      · split
        · exact kept
        · exact kept.of_same ⟨rfl, rfl, rfl⟩

theorem linkReady (kept : Kept stack none) (now : Instant) :
    Kept (stack.tcpLinkReady now) none := by
  unfold Stack.tcpLinkReady
  generalize List.range stack.tcbs.length = ids
  induction ids generalizing stack with
  | nil => exact kept
  | cons id ids ih =>
    have passed : Kept (linkReadyOne now stack id) none := by
      unfold linkReadyOne
      cases known : stack.tcb id with
      | none => exact kept
      | some tcb =>
        split
        · exact kept.works known rfl (.of_speaks (tcpOutput_speaks _ tcb now))
        · exact kept
    exact ih passed

theorem poll (kept : Kept stack none) (now : Instant) : Kept (stack.tcpPoll now).1 none := by
  unfold tcpPoll
  generalize List.range stack.tcbs.length = ids
  suffices all : ∀ polled : Stack Link × Option Instant, Kept polled.1 none →
      Kept (ids.foldl (pollOne now) polled).1 none from all (stack, none) kept
  clear kept
  induction ids with
  | nil => exact fun _ kept => kept
  | cons id ids ih =>
    intro polled kept
    refine ih _ ?_
    unfold pollOne
    split
    · exact kept
    · next tcb known =>
        have worked : Kept (polled.1.withTcb id fun stack tcb =>
            let polled := tcpPollOne stack tcb now
            (polled.1, polled.2, polled.2.deadline)).1 none :=
          kept.works known rfl (.of_speaks (tcpPollOne_speaks _ tcb now))
        dsimp only
        split <;> exact worked

theorem call (kept : Kept stack none) (held : stack.Held id) {input : Input}
    (calls : input.isCall) (now : Instant) : Kept (stack.call id input now).1 none := by
  obtain ⟨tcb, known, -⟩ := held
  refine kept.works known rfl ?_
  cases input with
  | read room => exact .of_speaks (tcpRead_speaks _ tcb now room)
  | write data => exact .of_speaks (tcpWrite_speaks _ tcb now data)
  | shutdown => exact .of_speaks (tcpShutdown_speaks _ tcb now)
  | release => exact .of_speaks (tcpRelease_speaks _ tcb now)
  | _ => cases calls

theorem unlistenOne (kept : Kept stack (some l)) (gone : stack.listener l = none) (now : Instant)
    (conn : ℕ) :
    Kept (Stack.unlistenOne l now stack conn) (some l) ∧
      (Stack.unlistenOne l now stack conn).listener l = none ∧
      (Stack.unlistenOne l now stack conn).tcbs.length = stack.tcbs.length ∧
      ∀ {other tcb}, (Stack.unlistenOne l now stack conn).tcb other = some tcb →
        tcb.listener = some l → other ≠ conn ∧ stack.tcb other = some tcb := by
  by_cases mine : ∃ tcb, stack.tcb conn = some tcb ∧ tcb.listener = some l
  · obtain ⟨tcb, known, mine⟩ := mine
    have inside := lt_of_lookup known
    have passes : Stack.unlistenOne l now stack conn = (stack.withTcb conn
        (quietly fun stack tcb => EspDevkit.Net.tcpUnlisten stack tcb now)).1 :=
      if_pos (by rw [known]; exact decide_eq_true mine)
    have out : ∀ {l listener}, stack.listener l = some listener → conn ∉ listener.ready := by
      intro other listener placed mem
      obtain ⟨tcb', placed', mine', -⟩ := kept.ready placed conn mem
      have same : tcb' = tcb := Option.some.inj (placed'.symm.trans known)
      rw [same, mine] at mine'
      cases mine'
      exact absurd (gone.symm.trans placed) (by rintro ⟨⟩)
    have parted : Kept (stack.putTcb conn
        (some { tcb with released := true, listener := none })) (some l) :=
      kept.put known (.inr ⟨rfl, out⟩) fun other => absurd rfl other
    have minds := Minds.of_speaks (tcpAbort_speaks (stack.putTcb conn none)
      { tcb with released := true, listener := none } now)
    generalize acts : tcpAbort (stack.putTcb conn none)
      { tcb with released := true, listener := none } now = result at minds
    obtain ⟨after, tcb'⟩ := result
    obtain ⟨slot, kept'⟩ := parted.mind inside minds
    have acts' : quietly (fun stack tcb => EspDevkit.Net.tcpUnlisten stack tcb now)
        (stack.putTcb conn none) tcb = (after, tcb', ()) :=
      congrArg (fun result => (result.1, result.2, ())) acts
    have alone : tcb'.listener = none := minds.listener
    rw [passes]
    refine ⟨withTcb known acts' slot kept' (.inr alone), ?_⟩
    have listeners : after.listeners = stack.listeners := minds.same.listeners
    have beside : ∀ {other}, other ≠ conn → after.tcb other = stack.tcb other := fun apart => by
      unfold Stack.tcb
      rw [slot]
      exact lookup_set_ne apart.symm none
    have cleared : after.tcb conn = none := by
      unfold Stack.tcb
      rw [slot]
      exact lookup_set_self inside none
    rcases withTcb_alone known acts' alone with same | same
    · rw [same]
      refine ⟨by rw [Stack.listener, listeners]; exact gone, by rw [slot, length_set],
        fun {other held} placed _ => ?_⟩
      have apart : other ≠ conn := by
        rintro rfl
        exact absurd (cleared.symm.trans placed) (by rintro ⟨⟩)
      exact ⟨apart, (beside apart).symm.trans placed⟩
    · rw [same]
      refine ⟨by change lookup after.listeners l = none; rw [listeners]; exact gone,
        by simp only [putTcb, slot, length_set], fun {other held} placed mine' => ?_⟩
      have apart : other ≠ conn := by
        rintro rfl
        have at' : (after.putTcb other (some (dropBuffers tcb'))).tcb other =
            some (dropBuffers tcb') :=
          lookup_set_self (by rw [slot, length_set]; exact inside) _
        have here : held = dropBuffers tcb' := Option.some.inj (placed.symm.trans at')
        have none : held.listener = none := by
          rw [here]
          exact (congrArg Frame.listener (dropBuffers_quiet tcb').frame).trans alone
        exact absurd (none.symm.trans mine') (by rintro ⟨⟩)
      have unmoved : (after.putTcb conn (some (dropBuffers tcb'))).tcb other = after.tcb other :=
        lookup_set_ne apart.symm _
      exact ⟨apart, (beside apart).symm.trans (unmoved.symm.trans placed)⟩
  · have passes : Stack.unlistenOne l now stack conn = stack := by
      refine if_neg fun told => mine ?_
      cases known : stack.tcb conn with
      | none =>
        rw [known] at told
        cases told
      | some tcb =>
        rw [known] at told
        exact ⟨tcb, rfl, of_decide_eq_true told⟩
    rw [passes]
    refine ⟨kept, gone, rfl, fun {other held} placed mine' => ⟨?_, placed⟩⟩
    rintro rfl
    exact mine ⟨held, placed, mine'⟩

theorem unlisten (kept : Kept stack none) (held : (stack.listener l).isSome) (now : Instant) :
    Kept (stack.tcpUnlisten l now) none := by
  obtain ⟨listener, known⟩ := isSome_iff_exists.mp held
  have inside := lt_of_lookup known
  have at' : (stack.putListener l none).listener l = none := lookup_set_self inside none
  have beside : ∀ {other}, l ≠ other →
      (stack.putListener l none).listener other = stack.listener other :=
    fun apart => lookup_set_ne apart none
  have dropped : Kept (stack.putListener l none) (some l) := by
    have old : ∀ {other held}, (stack.putListener l none).listener other = some held →
        stack.listener other = some held := by
      intro other held placed
      by_cases same : l = other
      · subst same
        exact absurd (at'.symm.trans placed) nofun
      · exact (beside same).symm.trans placed
    refine ⟨kept.unbroken, fun placed => kept.ready (old placed),
      fun placed => kept.once (old placed), fun {other held l'} placed mine => ?_,
      fun placed => kept.few (old placed), kept.opened⟩
    by_cases same : l = l'
    · exact .inr (congrArg some same)
    · rw [beside same]
      exact .inl ((kept.known placed mine).resolve_right nofun)
  unfold Stack.tcpUnlisten
  rw [if_pos inside]
  dsimp only
  suffices all : ∀ (ids : List ℕ) (stack : Stack Link), Kept stack (some l) →
      stack.listener l = none → Kept (ids.foldl (Stack.unlistenOne l now) stack) (some l) ∧
        (ids.foldl (Stack.unlistenOne l now) stack).tcbs.length = stack.tcbs.length ∧
        ∀ {conn tcb}, (ids.foldl (Stack.unlistenOne l now) stack).tcb conn = some tcb →
          tcb.listener = some l → conn ∉ ids ∧ stack.tcb conn = some tcb by
    obtain ⟨kept', length, left⟩ := all (List.range stack.tcbs.length) _ dropped at'
    refine ⟨kept'.unbroken, kept'.ready, kept'.once, fun {conn tcb l'} placed mine => ?_, kept'.few,
      kept'.opened⟩
    rcases kept'.known placed mine with there | same
    · exact .inl there
    · cases same
      have missed := (left placed mine).1
      have bound : conn < stack.tcbs.length := Nat.lt_of_lt_of_eq (lt_of_lookup placed) length
      exact absurd (mem_range.mpr bound) missed
  intro ids
  induction ids with
  | nil => exact fun stack kept _ => ⟨kept, rfl, fun placed _ => ⟨not_mem_nil, placed⟩⟩
  | cons conn ids ih =>
    intro stack kept gone
    obtain ⟨kept', gone', length, left⟩ := kept.unlistenOne gone now conn
    obtain ⟨kept'', length', left'⟩ := ih _ kept' gone'
    refine ⟨kept'', length'.trans length, fun placed mine => ?_⟩
    obtain ⟨missed, before⟩ := left' placed mine
    obtain ⟨apart, first⟩ := left before mine
    exact ⟨fun mem => (mem_cons.mp mem).elim apart missed, first⟩

theorem step {after : Stack Link} (kept : Kept stack none) (step : Step stack after) :
    Kept after none := by
  cases step with
  | link link => exact kept.of_same ⟨rfl, rfl, rfl⟩
  | listen network random addr backlog buffers =>
    exact kept.listen network random addr backlog buffers
  | accept held => exact kept.accept held
  | unlisten held now => exact kept.unlisten held now
  | connect network random iss localPort remote buffers now =>
    exact kept.connect network random iss localPort remote buffers now
  | input network iss src dst unicast seg now =>
    exact kept.input network iss src dst unicast seg now
  | icmpError localAddr remoteAddr seq reported =>
    exact kept.icmpError localAddr remoteAddr seq reported
  | linkReady now => exact kept.linkReady now
  | poll now => exact kept.poll now
  | call held input calls now => exact kept.call held calls now
  | setNodelay held nodelay => exact kept.configure held fun _ => .still rfl rfl
  | setKeepalive held idle => exact kept.configure held fun _ => .still rfl rfl

theorem of_reachable (reachable : Reachable stack) : Kept stack none := by
  refine @Transition.Reachable.invariant _ _ _ (Kept · none) (fun _ initial => ?_)
    (fun _ _ kept step => kept.step step) _ reachable
  cases initial with
  | fresh link => exact ⟨rfl, nofun, nofun, nofun, nofun, nofun⟩

end Kept

def device : Network :=
  { isOwnAddress := fun ip => decide (ip = 0x0a000001)
    sourceFor := fun _ => some 0x0a000001
    mtuTo := fun _ => some 1500 }

def fromClient (seq ack : Seq) (flags : Flags) : Segment :=
  { srcPort := 1234, dstPort := 80, seq, ack, flags, window := 1000
    mss := none, windowScale := none, data := [], data_lt := Segment.empty_lt }

def serving : Stack Port :=
  (Stack.tcpListen { link := {} } device 0 ⟨0, 80⟩ 1 ⟨64, 64, Buffers.sixtyFour_lt, Buffers.sixtyFour_lt⟩).1

def asked : Stack Port :=
  serving.tcpInput device 1000 0x0a000002 0x0a000001 true (fromClient 5000 0 { syn := true }) 100

def joined : Stack Port :=
  asked.tcpInput device 0 0x0a000002 0x0a000001 true (fromClient 5001 1001 { ack := true }) 200

theorem joined_reachable : Reachable joined := by
  have serves : Reachable serving := .next (.start (.fresh {})) (.listen _ device 0 ⟨0, 80⟩ 1 _)
  have asks : Reachable asked := serves.next (.input serving device 1000 _ _ true _ 100)
  exact asks.next (.input asked device 0 _ _ true _ 200)

end Stack

/-- What the listeners of a stack know of their connections, in every state it gets into: who
waits is there, has completed the handshake and waits once, for the listener it belongs to;
no more connections belong to a listener than its backlog; and no empty slot is unwrapped. -/
theorem listeners_keep_track {Link : Type} [TcpHost Link] {stack : Stack Link}
    (reachable : Stack.Reachable stack) :
    stack.fault = false ∧
      (∀ id tcb l, stack.tcb id = some tcb → tcb.listener = some l →
        (stack.listener l).isSome) ∧
      ∀ l listener, stack.listener l = some listener →
        stack.pending l ≤ listener.backlog ∧ listener.ready.Nodup ∧
        ∀ id ∈ listener.ready,
          (∃ tcb, stack.tcb id = some tcb ∧ tcb.listener = some l ∧ tcb.state ≠ .synReceived) ∧
          ∀ l' listener', l' ≠ l → stack.listener l' = some listener' →
            id ∉ listener'.ready := by
  have kept := Stack.Kept.of_reachable reachable
  refine ⟨kept.unbroken, fun id tcb l placed mine => (kept.known placed mine).resolve_right nofun,
    fun l listener known => ⟨kept.few known, kept.once known, fun id mem =>
      ⟨kept.ready known id mem, fun l' listener' apart known' mem' => ?_⟩⟩⟩
  obtain ⟨tcb, placed, mine, -⟩ := kept.ready known id mem
  obtain ⟨tcb', placed', mine', -⟩ := kept.ready known' id mem'
  have same : tcb' = tcb := Option.some.inj (placed'.symm.trans placed)
  rw [same, mine] at mine'
  exact apart (Option.some.inj mine').symm

/-- A client waits for the device to accept it. -/
theorem listeners_keep_track_joined :
    (Stack.joined.listeners.map (Option.map Listener.ready) = [some [0]]) ∧
      Stack.joined.fault = false ∧ Stack.joined.pending 0 ≤ 1 := by
  have kept := listeners_keep_track Stack.joined_reachable
  have known : (Stack.joined.listener 0).map Listener.backlog = some 1 := by decide
  obtain ⟨listener, placed, one⟩ := map_eq_some_iff.mp known
  exact ⟨by decide, kept.1, one ▸ (kept.2.2 0 listener placed).1⟩

end EspDevkit.Net
