import Mathlib.Data.List.Nodup
import Mathlib.Data.List.Perm.Basic
import EspDevkit.Host.Relay

/-!
# Transfers and unlinks of the relay

Every transfer is in one place until it is answered, and every unlink until it
is.
-/

namespace EspDevkit.Host

open List

def Cmd.submitted : Cmd → Option ℕ
  | .submit job => some job.seqnum
  | _ => none

def submits (cmds : List Cmd) : List ℕ := cmds.filterMap Cmd.submitted

def Cmd.unlinks : Cmd → Option (ℕ × ℕ)
  | .unlink seqnum target => some (seqnum, target)
  | _ => none

def unlinksOf (cmds : List Cmd) : List (ℕ × ℕ) := cmds.filterMap Cmd.unlinks

def transfers (entries : List Entry) : List ℕ :=
  (entries.filter fun entry => !entry.trailer).map Entry.seqnum

def Entry.attached (entry : Entry) : Option (ℕ × ℕ) :=
  entry.unlinkedBy.map fun unlink => (unlink, entry.seqnum)

def attached (entries : List Entry) : List (ℕ × ℕ) := entries.filterMap Entry.attached

def Reply.answers (transfer : ℕ) : Reply → Bool
  | .retSubmit seqnum _ _ _ => seqnum = transfer
  | .retUnlink _ status target => status = ECONNRESET ∧ target = transfer

def answerCount (sent : List Reply) (transfer : ℕ) : ℕ := sent.countP (Reply.answers transfer)

def Reply.unlink : Reply → Option (ℕ × ℕ)
  | .retUnlink seqnum _ target => some (seqnum, target)
  | _ => none

def retUnlinks (sent : List Reply) : List (ℕ × ℕ) := sent.filterMap Reply.unlink

section

variable {first second : List Cmd} {entries later : List Entry} {sent : List Reply} {reply : Reply}

@[simp]
theorem submits_append : submits (first ++ second) = submits first ++ submits second :=
  filterMap_append

@[simp]
theorem unlinksOf_append : unlinksOf (first ++ second) = unlinksOf first ++ unlinksOf second :=
  filterMap_append

@[simp]
theorem submits_nil : submits [] = [] := rfl

@[simp]
theorem unlinksOf_nil : unlinksOf [] = [] := rfl

@[simp]
theorem submits_cons
    (cmd : Cmd) : submits (cmd :: first) = cmd.submitted.toList ++ submits first := by
  cases cmd <;> rfl

@[simp]
theorem unlinksOf_cons (cmd : Cmd) :
    unlinksOf (cmd :: first) = cmd.unlinks.toList ++ unlinksOf first := by
  cases cmd <;> rfl

@[simp]
theorem transfers_append : transfers (entries ++ later) = transfers entries ++ transfers later := by
  simp [transfers]

@[simp]
theorem attached_append : attached (entries ++ later) = attached entries ++ attached later :=
  filterMap_append

@[simp]
theorem attached_cons (entry : Entry) :
    attached (entry :: entries) = entry.attached.toList ++ attached entries := by
  rw [attached, filterMap_cons]
  cases entry.attached <;> rfl

theorem transfers_cons (entry : Entry) :
    transfers (entry :: entries) =
      if entry.trailer then transfers entries else entry.seqnum :: transfers entries := by
  cases trailer : entry.trailer <;> simp [transfers, trailer]

@[simp]
theorem retUnlinks_append (reply : Reply) :
    retUnlinks (sent ++ [reply]) = retUnlinks sent ++ reply.unlink.toList := by
  rw [retUnlinks, filterMap_append]
  cases unlink : reply.unlink <;> simp [retUnlinks, unlink]

theorem answerCount_append (reply : Reply) (transfer : ℕ) :
    answerCount (sent ++ [reply]) transfer =
      answerCount sent transfer + (reply.answers transfer).toNat := by
  rw [answerCount, countP_append, answerCount]
  cases answers : reply.answers transfer <;> simp [answers]

end

namespace Worker

variable {ep : Ep} {worker before after : Worker} {action : Action}

def queue (worker : Worker) : List Cmd := worker.held ++ worker.batch ++ worker.commands

def unanswered (worker : Worker) : List ℕ :=
  transfers worker.again ++ transfers worker.entries ++ submits worker.queue

def openUnlinks (worker : Worker) : List (ℕ × ℕ) :=
  attached worker.entries ++ unlinksOf worker.queue

def Spares (worker : Worker) : List Cmd → Prop
  | .unlink _ target :: _ => target ∈ worker.begun ∧ target ∉ worker.unlinked ∧
      ∀ entry ∈ worker.again, entry.seqnum ≠ target
  | _ => True

/-- Seqnums are new, one held transfer at most comes back at a time, and unlinks
come in time. -/
def Calm (worker : Worker) : Action → Prop
  | .push (.submit submit) => submit.seqnum ∉ worker.submitted
  | .turn => worker.draining = false → (submits worker.held).length ≤ 1
  | .handle _ => worker.Spares worker.batch
  | _ => True

def Busy (worker : Worker) : Prop := worker.phase = .handling ∨ worker.phase = .polling

structure Inv (worker : Worker) : Prop where
  pending : worker.pending.length = worker.entries.length
  nodup : worker.submitted.Nodup
  unanswered : worker.unanswered =
    worker.submitted.filter fun transfer => answerCount worker.sent transfer = 0
  once : ∀ transfer, answerCount worker.sent transfer ≤ 1
  known : ∀ transfer, answerCount worker.sent transfer ≠ 0 → transfer ∈ worker.submitted
  unlinks : worker.unlinks.Perm (worker.openUnlinks ++ retUnlinks worker.sent)
  refused : ∀ earlier unlink target later,
    worker.sent = earlier ++ .retUnlink unlink 0 target :: later →
      ∃ status actual data, .retSubmit target status actual data ∈ earlier
  reset : ∀ unlink target, .retUnlink unlink ECONNRESET target ∈ worker.sent →
    target ∈ worker.unlinked
  marked : ∀ entry ∈ worker.entries, entry.unlinkedBy ≠ none → entry.seqnum ∈ worker.unlinked
  trailers : ∀ entry ∈ worker.entries, entry.trailer = true → entry.unlinkedBy = none
  again : ∀ entry ∈ worker.again, entry.trailer = false ∧ entry.unlinkedBy = none
  quiet : worker.draining = false →
    worker.again = [] ∧ ∀ entry ∈ worker.entries, entry.unlinkedBy = none
  heldUnlinks : unlinksOf worker.held = []
  heldSubmits : worker.draining = false → worker.Busy → submits worker.held = []
  begun : ∃ started, worker.submitted = started ++ submits worker.queue ∧
    ∀ transfer, transfer ∈ started ↔ transfer ∈ worker.begun
  order : ∀ earlier transfer later, worker.begun = earlier ++ transfer :: later →
    ∀ other, worker.submitted.idxOf other < worker.submitted.idxOf transfer → other ∈ earlier
  batch : worker.phase ≠ .handling → worker.batch = []
  idle : worker.Busy → worker.worked = false →
    worker.batch = [] ∧ (worker.draining = false → worker.held = [])
  parked : worker.phase = .parked →
    (worker.draining = true → worker.pending ≠ []) ∧ (worker.draining = false → worker.held = [])

namespace Inv

theorem start : Worker.start.Inv where
  pending := rfl
  nodup := nodup_nil
  unanswered := rfl
  once _ := Nat.zero_le _
  known _ answered := absurd rfl answered
  unlinks := .refl _
  refused _ _ _ _ sent := absurd sent (by simp [Worker.start])
  reset _ _ sent := absurd sent (by simp [Worker.start])
  marked _ mem := absurd mem (by simp [Worker.start])
  trailers _ mem := absurd mem (by simp [Worker.start])
  again _ mem := absurd mem (by simp [Worker.start])
  quiet _ := ⟨rfl, fun _ mem => absurd mem (by simp [Worker.start])⟩
  heldUnlinks := rfl
  heldSubmits _ _ := rfl
  begun := ⟨[], rfl, fun _ => Iff.rfl⟩
  order earlier transfer later begun := absurd begun (by simp [Worker.start])
  batch _ := rfl
  idle _ _ := ⟨rfl, fun _ => rfl⟩
  parked parks := by cases parks

theorem nodup_unanswered (inv : worker.Inv) : worker.unanswered.Nodup := by
  rw [inv.unanswered]
  exact inv.nodup.filter _

theorem answered (inv : worker.Inv) {ahead behind : List ℕ} {transfer : ℕ} {reply : Reply}
    (where_ : worker.unanswered = ahead ++ transfer :: behind)
    (answers : ∀ other, reply.answers other = decide (other = transfer)) :
    ahead ++ behind = worker.submitted.filter
        (fun other => answerCount (worker.sent ++ [reply]) other = 0) ∧
      (∀ other, answerCount (worker.sent ++ [reply]) other ≤ 1) ∧
      ∀ other, answerCount (worker.sent ++ [reply]) other ≠ 0 → other ∈ worker.submitted := by
  have open_ : transfer ∈ worker.submitted ∧ answerCount worker.sent transfer = 0 := by
    have member : transfer ∈ worker.unanswered := by
      rw [where_]
      simp
    rw [inv.unanswered, mem_filter, decide_eq_true_iff] at member
    exact member
  have count : ∀ other, answerCount (worker.sent ++ [reply]) other =
      answerCount worker.sent other + (decide (other = transfer)).toNat := by
    intro other
    rw [answerCount_append, answers]
  refine ⟨?_, fun other => ?_, fun other answered => ?_⟩
  · have nodup := inv.nodup_unanswered
    have kept : worker.submitted.filter
        (fun other => answerCount (worker.sent ++ [reply]) other = 0) =
          worker.unanswered.filter (fun other => other ≠ transfer) := by
      rw [inv.unanswered, filter_filter]
      refine filter_congr fun other _ => ?_
      rw [count]
      by_cases same : other = transfer
      · simp [same]
      · simp [same]
    rw [where_] at nodup kept
    rw [kept, filter_append, filter_cons_of_neg (by simp)]
    have apart := nodup_append.mp nodup
    have distinct := nodup_cons.mp apart.2.1
    rw [filter_eq_self.mpr fun other mem => by
      simpa using apart.2.2 other mem transfer (by simp)]
    rw [filter_eq_self.mpr fun other mem => by
      simp only [ne_eq, decide_not, Bool.not_eq_eq_eq_not, Bool.not_true, decide_eq_false_iff_not]
      rintro rfl
      exact distinct.1 mem]
  · rw [count]
    by_cases same : other = transfer
    · rw [same, open_.2]
      simp
    · simp only [same, decide_false, Bool.toNat_false, Nat.add_zero]
      exact inv.once other
  · by_cases same : other = transfer
    · rw [same]
      exact open_.1
    · rw [count] at answered
      simp only [same, decide_false, Bool.toNat_false, Nat.add_zero] at answered
      exact inv.known other answered

end Inv

structure Begins (before : Worker) (entries : List Entry) (after : Worker) : Prop where
  same : after = { before with
    pending := after.pending, entries := after.entries, begun := after.begun }
  pending : before.pending.length = before.entries.length →
    after.pending.length = after.entries.length
  transfers : transfers after.entries = transfers before.entries ++ entries.map Entry.seqnum
  attached : attached after.entries = attached before.entries
  begun : after.begun = before.begun ++ entries.map Entry.seqnum
  mem : ∀ entry ∈ after.entries, entry ∈ before.entries ∨ entry.unlinkedBy = none

theorem begins_begin {entry : Entry} (plain : entry.trailer = false)
    (clean : entry.unlinkedBy = none) : Begins worker [entry] (worker.begin ep entry) := by
  refine ⟨rfl, fun length => ?_, ?_, ?_, rfl, fun other mem => ?_⟩
  · simp only [Worker.begin]
    generalize (!ep.isIn && entry.zlp && decide (0 < entry.length) &&
      decide (entry.length % ep.maxPacketSize = 0)) = trailer
    cases trailer <;> simp [length]
  · simp only [Worker.begin]
    split <;> simp [EspDevkit.Host.transfers, plain]
  · simp only [Worker.begin]
    split <;> simp [EspDevkit.Host.attached, Entry.attached, clean]
  · simp only [Worker.begin] at mem
    rcases mem_append.mp mem with old | new
    · exact .inl old
    · right
      rcases mem_cons.mp new with rfl | trailer
      · exact clean
      · split at trailer
        · rw [mem_singleton.mp trailer]
        · cases trailer

theorem begins_foldl {entries : List Entry}
    (plain : ∀ entry ∈ entries, entry.trailer = false ∧ entry.unlinkedBy = none) (worker : Worker) :
    Begins worker entries (entries.foldl (begin ep) worker) := by
  induction entries generalizing worker with
  | nil => exact ⟨rfl, id, by simp, rfl, by simp, fun _ mem => .inl mem⟩
  | cons entry rest ih =>
    obtain ⟨trailer, clean⟩ := plain entry (by simp)
    have first : Begins worker [entry] (worker.begin ep entry) := begins_begin trailer clean
    have later := ih (fun other mem => plain other (mem_cons_of_mem _ mem))
      (worker.begin ep entry)
    rw [foldl_cons]
    refine ⟨?_, fun length => later.pending (first.pending length), ?_, ?_, ?_, ?_⟩
    · rw [later.same]
      rfl
    · rw [later.transfers, first.transfers]
      simp
    · rw [later.attached, first.attached]
    · rw [later.begun, first.begun]
      simp
    · intro other mem
      rcases later.mem other mem with old | clean
      · exact first.mem other old
      · exact .inr clean

theorem markUnlinked_some {seqnum target : ℕ} {entries marked : List Entry}
    (found : markUnlinked seqnum target entries = some marked) :
    ∃ ahead entry behind, entries = ahead ++ entry :: behind ∧ entry.seqnum = target ∧
      entry.trailer = false ∧
      marked = ahead ++ { entry with unlinkedBy := some seqnum } :: behind := by
  induction entries generalizing marked with
  | nil => cases found
  | cons entry rest ih =>
    rw [markUnlinked] at found
    split at found
    · rename_i same
      cases found
      exact ⟨[], entry, rest, rfl, same.1, same.2, rfl⟩
    · obtain ⟨later, further, rfl⟩ := Option.map_eq_some_iff.mp found
      obtain ⟨ahead, other, behind, rfl, same, plain, rfl⟩ := ih further
      exact ⟨entry :: ahead, other, behind, rfl, same, plain, rfl⟩

theorem markUnlinked_none {seqnum target : ℕ} {entries : List Entry}
    (missing : markUnlinked seqnum target entries = none) : target ∉ transfers entries := by
  induction entries with
  | nil => simp [transfers]
  | cons entry rest ih =>
    rw [markUnlinked] at missing
    split at missing
    · cases missing
    · rename_i different
      have later := ih (Option.map_eq_none_iff.mp missing)
      rw [transfers_cons]
      split
      · exact later
      · rename_i plain
        rw [mem_cons, not_or]
        refine ⟨fun same => different ⟨same.symm, ?_⟩, later⟩
        simpa using plain

namespace Inv

theorem begun_mem (inv : worker.Inv) {transfer : ℕ} (begun : transfer ∈ worker.begun) :
    transfer ∈ worker.submitted ∧ transfer ∉ submits worker.queue := by
  obtain ⟨started, split_, mem⟩ := inv.begun
  have here := (mem transfer).mpr begun
  have nodup := inv.nodup
  rw [split_] at nodup ⊢
  exact ⟨mem_append_left _ here,
    fun queued => (nodup_append.mp nodup).2.2 transfer here transfer queued rfl⟩

/-- A transfer that was begun, is not to go again and was not unlinked is on the
endpoint, or was answered as done. -/
theorem found_or_done (inv : worker.Inv) {transfer : ℕ} (begun : transfer ∈ worker.begun)
    (fresh : transfer ∉ worker.unlinked) (goes : ∀ entry ∈ worker.again, entry.seqnum ≠ transfer) :
    transfer ∈ transfers worker.entries ∨
      ∃ status actual data, .retSubmit transfer status actual data ∈ worker.sent := by
  obtain ⟨submitted, unqueued⟩ := inv.begun_mem begun
  by_cases answered : answerCount worker.sent transfer = 0
  · left
    have member : transfer ∈ worker.unanswered := by
      rw [inv.unanswered]
      exact mem_filter.mpr ⟨submitted, decide_eq_true answered⟩
    rw [Worker.unanswered, mem_append, mem_append] at member
    rcases member with (again | here) | queued
    · obtain ⟨entry, mem, same⟩ := mem_map.mp again
      exact absurd same (goes entry (mem_filter.mp mem).1)
    · exact here
    · exact absurd queued unqueued
  · right
    obtain ⟨reply, mem, answers⟩ := countP_pos_iff.mp (Nat.pos_of_ne_zero answered)
    cases reply with
    | retSubmit seqnum status actual data =>
      have same : seqnum = transfer := of_decide_eq_true answers
      subst same
      exact ⟨status, actual, data, mem⟩
    | retUnlink unlink status target =>
      obtain ⟨rfl, rfl⟩ := of_decide_eq_true answers
      exact absurd (inv.reset unlink target mem) fresh

end Inv

end Worker

end EspDevkit.Host
