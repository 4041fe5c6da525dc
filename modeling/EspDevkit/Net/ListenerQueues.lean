import EspDevkit.Net.Sockets
import EspDevkit.Net.TcpSpeech

/-!
# The queues of listeners

A connection that waits to be accepted is in its slot, belongs to the listener in whose queue
it is, and has completed its handshake.
-/

namespace EspDevkit.Net

open SlotTable

namespace Stack

variable {Link : Type}

structure Same (stack after : Stack Link) : Prop where
  tcbs : after.tcbs = stack.tcbs
  listeners : after.listeners = stack.listeners
  fault : after.fault = stack.fault

theorem Same.refl (stack : Stack Link) : Same stack stack := ⟨rfl, rfl, rfl⟩

theorem Same.trans {first second third : Stack Link} (one : Same first second)
    (two : Same second third) : Same first third :=
  ⟨two.tcbs.trans one.tcbs, two.listeners.trans one.listeners, two.fault.trans one.fault⟩

/-- The bookkeeping of listeners.  `gone` is a listener that is being dropped, whose
connections have not all been told. -/
structure Kept (stack : Stack Link) (gone : Option ℕ) : Prop where
  unbroken : stack.fault = false
  ready : ∀ {l listener}, stack.listener l = some listener → ∀ id ∈ listener.ready,
    ∃ tcb, stack.tcb id = some tcb ∧ tcb.listener = some l ∧ tcb.state ≠ .synReceived
  once : ∀ {l listener}, stack.listener l = some listener → listener.ready.Nodup
  known : ∀ {id tcb l}, stack.tcb id = some tcb → tcb.listener = some l →
    (stack.listener l).isSome ∨ gone = some l
  few : ∀ {l listener}, stack.listener l = some listener → stack.pending l ≤ listener.backlog
  opened : ∀ {id tcb}, stack.tcb id = some tcb → tcb.listener ≠ none → tcb.state ≠ .synSent

namespace Kept

variable {stack after : Stack Link} {gone : Option ℕ} {id l : ℕ} {tcb tcb' : Tcb}

theorem of_same (kept : Kept stack gone) (same : Same stack after) : Kept after gone := by
  have tcb : after.tcb = stack.tcb := funext fun id => by simp only [Stack.tcb, same.tcbs]
  have listener : after.listener = stack.listener :=
    funext fun id => by simp only [Stack.listener, same.listeners]
  have pending : after.pending = stack.pending :=
    funext fun l => by simp only [Stack.pending, same.tcbs]
  refine ⟨same.fault.trans kept.unbroken, ?_, ?_, ?_, ?_, ?_⟩ <;>
    simp only [tcb, listener, pending]
  · exact kept.ready
  · exact kept.once
  · exact kept.known
  · exact kept.few
  · exact kept.opened

theorem tcb_put (known : stack.tcb id = some tcb) (slot : Option Tcb) :
    (stack.putTcb id slot).tcb id = slot :=
  lookup_set_self (lt_of_lookup known) slot

theorem tcb_put_ne {other : ℕ} (apart : id ≠ other) (slot : Option Tcb) :
    (stack.putTcb id slot).tcb other = stack.tcb other :=
  lookup_set_ne apart slot

theorem pending_put (known : stack.tcb id = some tcb) (slot : Option Tcb) (l : ℕ) :
    (stack.putTcb id slot).pending l + (decide (tcb.listener = some l)).toNat =
      stack.pending l + (slot.any fun t => decide (t.listener = some l)).toNat := by
  have counted := @count_set _ stack.tcbs id (fun t => decide (t.listener = some l))
    (lt_of_lookup known) slot
  have held : lookup stack.tcbs id = some tcb := known
  rw [held] at counted
  exact counted

theorem put (kept : Kept stack gone) (known : stack.tcb id = some tcb)
    (listener : tcb'.listener = tcb.listener ∨ tcb'.listener = none ∧
      ∀ {l listener}, stack.listener l = some listener → id ∉ listener.ready)
    (opening : tcb'.listener ≠ none → tcb'.state.opening → tcb'.state = tcb.state) :
    Kept (stack.putTcb id (some tcb')) gone := by
  have at' := tcb_put known (some tcb')
  refine ⟨kept.unbroken, fun known' other mem => ?_, kept.once,
    fun {other held l} placed mine => ?_, fun {l _} known' => ?_,
    fun {other held} placed mine => ?_⟩
  · obtain ⟨held, placed, mine, state⟩ := kept.ready known' other mem
    by_cases same : id = other
    · subst same
      rw [known] at placed
      cases placed
      rcases listener with listener | ⟨-, out⟩
      · refine ⟨tcb', at', listener.trans mine, fun opens => state ?_⟩
        have again := opening (by rw [listener, mine]; simp) (by rw [opens]; rfl)
        exact again.symm.trans opens
      · exact absurd mem (out known')
    · exact ⟨held, (tcb_put_ne same _).trans placed, mine, state⟩
  · by_cases same : id = other
    · subst same
      rw [at'] at placed
      cases placed
      rcases listener with listener | ⟨none, -⟩
      · exact kept.known known (listener.symm.trans mine)
      · rw [none] at mine
        cases mine
    · exact kept.known ((tcb_put_ne same _).symm.trans placed) mine
  · have counted := pending_put known (some tcb') l
    have few := kept.few known'
    have fewer : (decide (tcb'.listener = some l)).toNat ≤
        (decide (tcb.listener = some l)).toNat := by
      rcases listener with listener | ⟨none, -⟩
      · rw [listener]
      · simp [none]
    simp only [Option.any_some] at counted
    omega
  · by_cases same : id = other
    · subst same
      rw [at'] at placed
      cases placed
      rcases listener with listener | ⟨none, -⟩
      · intro state
        have again := opening mine (by rw [state]; rfl)
        rw [listener] at mine
        exact kept.opened known mine (again.symm.trans state)
      · exact absurd none mine
    · exact kept.opened ((tcb_put_ne same _).symm.trans placed) mine

theorem remove (kept : Kept stack gone) (known : stack.tcb id = some tcb)
    (out : ∀ {l listener}, stack.listener l = some listener → id ∉ listener.ready) :
    Kept (stack.putTcb id none) gone := by
  have at' := tcb_put known none
  refine ⟨kept.unbroken, fun known' other mem => ?_, kept.once,
    fun {other held l} placed mine => ?_, fun {l _} known' => ?_,
    fun {other held} placed mine => ?_⟩
  · obtain ⟨held, placed, rest⟩ := kept.ready known' other mem
    have apart : id ≠ other := by
      rintro rfl
      exact out known' mem
    exact ⟨held, (tcb_put_ne apart _).trans placed, rest⟩
  · have apart : id ≠ other := by
      rintro rfl
      rw [at'] at placed
      cases placed
    exact kept.known ((tcb_put_ne apart _).symm.trans placed) mine
  · have counted := pending_put known none l
    have few := kept.few known'
    simp only [Option.any_none, Bool.toNat_false] at counted
    omega
  · have apart : id ≠ other := by
      rintro rfl
      rw [at'] at placed
      cases placed
    exact kept.opened ((tcb_put_ne apart _).symm.trans placed) mine

theorem putReady (kept : Kept stack gone) {listener : Listener}
    (known : stack.listener l = some listener) {ready : List ℕ} (once : ready.Nodup)
    (each : ∀ id ∈ ready,
      ∃ tcb, stack.tcb id = some tcb ∧ tcb.listener = some l ∧ tcb.state ≠ .synReceived) :
    Kept (stack.putListener l (some { listener with ready })) gone := by
  have at' : (stack.putListener l (some { listener with ready })).listener l =
      some { listener with ready } := lookup_set_self (lt_of_lookup known) _
  have beside : ∀ {other}, l ≠ other →
      (stack.putListener l (some { listener with ready })).listener other = stack.listener other :=
    fun apart => lookup_set_ne apart _
  refine ⟨kept.unbroken, fun {other held} known' => ?_, fun {other held} known' => ?_,
    fun {_ _ other} placed mine => ?_, fun {other held} known' => ?_, kept.opened⟩
  all_goals by_cases same : l = other
  · subst same
    rw [at'] at known'
    cases known'
    exact each
  · exact kept.ready ((beside same).symm.trans known')
  · subst same
    rw [at'] at known'
    cases known'
    exact once
  · exact kept.once ((beside same).symm.trans known')
  · subst same
    exact .inl (by rw [at']; rfl)
  · rw [beside same]
    exact kept.known placed mine
  · subst same
    rw [at'] at known'
    cases known'
    have few := kept.few known
    exact few
  · exact kept.few ((beside same).symm.trans known')

theorem free (kept : Kept stack gone) (known : stack.tcb id = some tcb) {listener : Listener}
    (mine : tcb.listener = some l) (known' : stack.listener l = some listener) :
    Kept ((stack.putTcb id none).unready l id) gone := by
  have unready : (stack.putTcb id none).unready l id = (stack.putListener l
      (some { listener with ready := listener.ready.filter (· ≠ id) })).putTcb id none := by
    have held := getElem_of_lookup known'
    have same : (stack.putTcb id none).listeners[l]? = some (some listener) := held
    unfold Stack.unready
    rw [same]
    rfl
  rw [unready]
  have left := kept.putReady known' ((kept.once known').filter (· ≠ id)) fun other mem =>
    kept.ready known' other (List.mem_filter.mp mem).1
  refine left.remove known fun {other held} placed mem => ?_
  obtain ⟨tcb', placed', mine', -⟩ := left.ready placed id mem
  have same : tcb' = tcb := Option.some.inj (placed'.symm.trans known)
  rw [same, mine] at mine'
  cases mine'
  have at' : (stack.putListener l
      (some { listener with ready := listener.ready.filter (· ≠ id) })).listener l =
        some { listener with ready := listener.ready.filter (· ≠ id) } :=
    lookup_set_self (lt_of_lookup known') _
  rw [at'] at placed
  cases placed
  simp at mem

theorem out_of_none (kept : Kept stack gone) (known : stack.tcb id = some tcb)
    (none : tcb.listener = none) {listener : Listener} (known' : stack.listener l = some listener) :
    id ∉ listener.ready := by
  intro mem
  obtain ⟨tcb', placed, mine, -⟩ := kept.ready known' id mem
  have same : tcb' = tcb := Option.some.inj (placed.symm.trans known)
  rw [same, none] at mine
  cases mine

theorem place (kept : Kept stack gone)
    (fresh : tcb.listener = none ∨ tcb.state ≠ .synSent ∧ ∃ l listener, tcb.listener = some l ∧
      stack.listener l = some listener ∧ stack.pending l < listener.backlog) :
    Kept { stack with tcbs := (SlotTable.place stack.tcbs tcb).1 } gone := by
  obtain ⟨free, at', beside⟩ := place_spec stack.tcbs tcb
  have counted : ∀ l, Stack.pending { stack with tcbs := (SlotTable.place stack.tcbs tcb).1 } l =
      stack.pending l + (decide (tcb.listener = some l)).toNat :=
    fun l => count_place stack.tcbs tcb
  generalize (SlotTable.place stack.tcbs tcb).2 = id at free at' beside
  have before : ∀ {other held}, Stack.tcb { stack with
      tcbs := (SlotTable.place stack.tcbs tcb).1 } other = some held →
      held = tcb ∨ stack.tcb other = some held := by
    intro other held placed
    by_cases same : other = id
    · subst same
      exact .inl (Option.some.inj (placed.symm.trans at'))
    · exact .inr ((beside other same).symm.trans placed)
  refine ⟨kept.unbroken, fun known' other mem => ?_, kept.once,
    fun {other held l} placed mine => ?_, fun {l _} known' => ?_,
    fun {other held} placed mine => ?_⟩
  · obtain ⟨held, placed, rest⟩ := kept.ready known' other mem
    have apart : other ≠ id := by
      rintro rfl
      exact absurd (free.symm.trans placed) nofun
    exact ⟨held, (beside other apart).trans placed, rest⟩
  · rcases before placed with rfl | old
    · rcases fresh with none | ⟨-, l', listener, mine', known', -⟩
      · exact absurd (none.symm.trans mine) nofun
      · have same : l' = l := Option.some.inj (mine'.symm.trans mine)
        subst same
        exact .inl (by change (stack.listener l').isSome; rw [known']; rfl)
    · exact kept.known old mine
  · rw [counted]
    have few := kept.few known'
    rcases fresh with none | ⟨-, l', listener, mine', known, room⟩
    · simp [none]
      exact few
    · by_cases same : l' = l
      · subst same
        have here : listener = _ := Option.some.inj (known.symm.trans known')
        subst here
        simp [mine']
        omega
      · simp [mine', same]
        exact few
  · rcases before placed with rfl | old
    · rcases fresh with none | ⟨opened, -⟩
      · exact absurd none mine
      · exact opened
    · exact kept.opened old mine

theorem withTcb {Result : Type} {act : Stack Link → Tcb → Stack Link × Tcb × Result}
    {result : Result} (known : stack.tcb id = some tcb)
    (acts : act (stack.putTcb id none) tcb = (after, tcb', result))
    (slot : after.tcbs = stack.tcbs.set id none) (kept : Kept (after.putTcb id (some tcb')) gone)
    (listened : gone = none ∨ tcb'.listener = none) : Kept (stack.withTcb id act).1 gone := by
  have inside : id < after.tcbs.length := by
    rw [slot, List.length_set]
    exact lt_of_lookup known
  have twice : ∀ first second : Option Tcb,
      (after.putTcb id first).putTcb id second = after.putTcb id second := fun first second => by
    simp only [putTcb, List.set_set]
  have emptied : after.putTcb id none = after := by
    simp only [putTcb, slot, List.set_set]
    rw [← slot]
  have quiet := dropBuffers_quiet tcb'
  have listener : (dropBuffers tcb').listener = tcb'.listener := congrArg Frame.listener quiet.frame
  have dropped := kept.put (lookup_set_self inside _) (.inl listener) fun _ => quiet.opening
  rw [twice] at dropped
  have at' : (after.putTcb id (some (dropBuffers tcb'))).tcb id = some (dropBuffers tcb') :=
    lookup_set_self inside _
  unfold Stack.withTcb
  rw [known]
  dsimp only
  rw [acts]
  dsimp only
  split
  · exact dropped
  · split
    · next l mine =>
        have all : gone = none := listened.resolve_right fun none =>
          absurd (listener.symm.trans mine) (by rw [none]; nofun)
        obtain ⟨listener, placed⟩ := Option.isSome_iff_exists.mp
          ((dropped.known at' mine).resolve_right (by rw [all]; nofun))
        have freed := dropped.free at' mine placed
        rw [twice, emptied] at freed
        exact freed
    · next none =>
        have freed := dropped.remove at' fun placed => dropped.out_of_none at' none placed
        rw [twice, emptied] at freed
        exact freed

end Kept

structure Minds (before after : Stack Link × Tcb) : Prop where
  same : Same before.1 after.1
  listener : after.2.listener = before.2.listener
  opening : after.2.state.opening → after.2.state = before.2.state

namespace Minds

variable {first second third : Stack Link × Tcb}

theorem refl (at' : Stack Link × Tcb) : Minds at' at' := ⟨.refl _, rfl, fun _ => rfl⟩

theorem trans (one : Minds first second) (two : Minds second third) : Minds first third := by
  refine ⟨one.same.trans two.same, two.listener.trans one.listener, fun opening => ?_⟩
  have same := two.opening opening
  rw [same] at opening ⊢
  exact one.opening opening

theorem of_quiet {stack : Stack Link} {tcb tcb' : Tcb} (quiet : Quiet tcb tcb') :
    Minds (stack, tcb) (stack, tcb') :=
  ⟨.refl _, congrArg Frame.listener quiet.frame, quiet.opening⟩

end Minds

namespace Kept

variable {stack after : Stack Link} {id : ℕ} {tcb tcb' : Tcb}

theorem mind {gone : Option ℕ} (kept : Kept (stack.putTcb id (some tcb)) gone)
    (inside : id < stack.tcbs.length) (minds : Minds (stack.putTcb id none, tcb) (after, tcb')) :
    after.tcbs = stack.tcbs.set id none ∧ Kept (after.putTcb id (some tcb')) gone := by
  have slot : after.tcbs = stack.tcbs.set id none := minds.same.tcbs
  refine ⟨slot, (kept.put (lookup_set_self inside _) (.inl minds.listener)
    fun _ => minds.opening).of_same ⟨?_, minds.same.listeners, minds.same.fault⟩⟩
  simp only [putTcb, slot, List.set_set]

/-- A connection no listener waits for leaves nothing but its slot. -/
theorem withTcb_alone {Result : Type} {act : Stack Link → Tcb → Stack Link × Tcb × Result}
    {after : Stack Link} {result : Result} (known : stack.tcb id = some tcb)
    (acts : act (stack.putTcb id none) tcb = (after, tcb', result))
    (alone : tcb'.listener = none) :
    (stack.withTcb id act).1 = after ∨
      (stack.withTcb id act).1 = after.putTcb id (some (dropBuffers tcb')) := by
  have none : (dropBuffers tcb').listener = none :=
    (congrArg Frame.listener (dropBuffers_quiet tcb').frame).trans alone
  unfold Stack.withTcb
  rw [known]
  dsimp only
  rw [acts]
  dsimp only
  split
  · exact .inr rfl
  · rw [none]
    exact .inl rfl

theorem put_self (kept : Kept stack none) (known : stack.tcb id = some tcb) :
    Kept (stack.putTcb id (some tcb)) none := by
  have same : stack.putTcb id (some tcb) = stack := by
    rw [putTcb, set_lookup known]
  rw [same]
  exact kept

theorem works {Result : Type} {act : Stack Link → Tcb → Stack Link × Tcb × Result}
    {result : Result} (kept : Kept stack none) (known : stack.tcb id = some tcb)
    (acts : act (stack.putTcb id none) tcb = (after, tcb', result))
    (minds : Minds (stack.putTcb id none, tcb) (after, tcb')) :
    Kept (stack.withTcb id act).1 none := by
  obtain ⟨slot, kept'⟩ := (kept.put_self known).mind (lt_of_lookup known) minds
  exact withTcb known acts slot kept' (.inl rfl)

theorem addListener (kept : Kept stack none) {listener : Listener} (empty : listener.ready = []) :
    Kept { stack with listeners := (SlotTable.place stack.listeners listener).1 } none := by
  obtain ⟨free, at', beside⟩ := place_spec stack.listeners listener
  generalize (SlotTable.place stack.listeners listener).2 = id at free at' beside
  have before : ∀ {l held}, Stack.listener { stack with
      listeners := (SlotTable.place stack.listeners listener).1 } l = some held →
      l = id ∧ held = listener ∨ stack.listener l = some held := by
    intro l held placed
    by_cases same : l = id
    · subst same
      exact .inl ⟨rfl, Option.some.inj (placed.symm.trans at')⟩
    · exact .inr ((beside l same).symm.trans placed)
  refine ⟨kept.unbroken, fun placed other mem => ?_, fun placed => ?_,
    fun {other held l} placed mine => ?_, fun placed => ?_, kept.opened⟩
  · rcases before placed with ⟨-, rfl⟩ | old
    · rw [empty] at mem
      cases mem
    · exact kept.ready old other mem
  · rcases before placed with ⟨-, rfl⟩ | old
    · rw [empty]
      exact .nil
    · exact kept.once old
  · have known := (kept.known placed mine).resolve_right nofun
    by_cases same : l = id
    · subst same
      exact absurd known (by change ¬ (lookup stack.listeners l).isSome; rw [free]; nofun)
    · refine .inl ?_
      change (lookup _ l).isSome
      rw [beside l same]
      exact known
  · rcases before placed with ⟨rfl, rfl⟩ | old
    · have none : stack.pending _ = 0 := count_eq_zero fun other held known => by
        refine decide_eq_false fun mine => ?_
        have there := (kept.known known mine).resolve_right nofun
        exact absurd there (by change ¬ (lookup stack.listeners _).isSome; rw [free]; nofun)
      exact none.trans_le (Nat.zero_le _)
    · exact kept.few old

theorem listen (kept : Kept stack none) (network : Network) (random : ℕ) (addr : SocketAddrV4)
    (backlog : ℕ) (buffers : Buffers) :
    Kept (stack.tcpListen network random addr backlog buffers).1 none := by
  unfold tcpListen
  split
  · exact kept
  · dsimp only
    split
    · exact kept
    · exact kept.addListener rfl

theorem accept (kept : Kept stack none) (held : (stack.listener id).isSome) :
    Kept (stack.tcpAccept id).1 none := by
  obtain ⟨listener, known⟩ := Option.isSome_iff_exists.mp held
  unfold tcpAccept
  rw [known]
  dsimp only
  split
  · exact kept
  · next conn ready waits =>
      have once : (conn :: ready).Nodup := waits ▸ kept.once known
      obtain ⟨tcb, placed, mine, -⟩ := kept.ready known conn (by rw [waits]; exact .head _)
      have popped := kept.putReady known once.of_cons fun other mem =>
        kept.ready known other (by rw [waits]; exact .tail _ mem)
      have placed' : (stack.putListener id (some { listener with ready })).tcb conn = some tcb :=
        placed
      rw [placed']
      refine popped.put placed' (.inr ⟨rfl, fun {l other} known' mem => ?_⟩) fun mine =>
        absurd rfl mine
      obtain ⟨tcb', placed'', mine', -⟩ := popped.ready known' conn mem
      have same : tcb' = tcb := Option.some.inj (placed''.symm.trans placed')
      rw [same, mine] at mine'
      cases mine'
      have at' : (stack.putListener id (some { listener with ready })).listener id =
          some { listener with ready } := lookup_set_self (lt_of_lookup known) _
      rw [at'] at known'
      cases known'
      exact (List.nodup_cons.mp once).1 mem

theorem icmpError (kept : Kept stack none) (localAddr remoteAddr : SocketAddrV4) (seq : Seq)
    (reported : Reported) : Kept (stack.tcpIcmpError localAddr remoteAddr seq reported) none := by
  unfold Stack.tcpIcmpError
  split
  · next found =>
      obtain ⟨tcb, known⟩ := lookup_of_findIdx found
      exact kept.works known rfl (.of_quiet (tcpIcmpError_quiet tcb seq reported))
  · exact kept

theorem configure (kept : Kept stack none) (held : stack.Held id) {set : Tcb → Tcb}
    (quiet : ∀ tcb, Quiet tcb (set tcb)) : Kept (stack.configure id set) none := by
  obtain ⟨tcb, known, -⟩ := held
  unfold Stack.configure
  rw [known]
  have same := quiet tcb
  exact kept.put known (.inl (congrArg Frame.listener same.frame)) fun _ => same.opening

end Kept

end Stack

end EspDevkit.Net
