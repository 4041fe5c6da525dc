import EspDevkit.Protobuf.Unpack
import Mathlib.Order.Basic

/-!
# The fields of a message

Every pass finds the same fields.
-/

namespace EspDevkit.Protobuf

open Fallible

/-- A read stays within the bytes, and what it gives has a property. -/
def Safe {α : Type} (x : Reading α) (post : α → Prop) : Prop :=
  match x with
  | .ok a => post a
  | .error (.error _) => True
  | .error .fault => False

section Safe

variable {α β : Type} {x : Reading α} {post post' : α → Prop}

theorem Safe.bind {next : α → Reading β} {after : β → Prop} (first : Safe x post)
    (rest : ∀ a, post a → Safe (next a) after) : Safe (x >>= next) after := by
  rcases x with (_ | _) | a
  · trivial
  · exact first.elim
  · exact rest a first

theorem Safe.chain {next : α → Reading β} {after : β → Prop} (first : Safe x fun _ => True)
    (rest : ∀ a, Safe (next a) after) : Safe (x >>= next) after :=
  first.bind fun a _ => rest a

theorem ok_of_bind {next : α → Reading β} {b : β} (ok : (x >>= next) = .ok b) :
    ∃ a, x = .ok a ∧ next a = .ok b := by
  cases x with
  | error e => cases ok
  | ok a => exact ⟨a, rfl, ok⟩

theorem Safe.of_ok {a : α} (safe : Safe x post) (ok : x = .ok a) : post a := by
  subst ok
  exact safe

theorem Safe.no_fault (safe : Safe x post) : x ≠ .error .fault := by
  rintro rfl
  exact safe

theorem Safe.mono (safe : Safe x post) (weaker : ∀ a, post a → post' a) : Safe x post' := by
  rcases x with (_ | _) | a
  · trivial
  · exact safe.elim
  · exact weaker a safe

end Safe

variable {data : List UInt8} {p stop : ℕ}

theorem byteAt_of_lt (inside : p < data.length) : byteAt data p = .ok data[p] := by
  rw [byteAt, List.getElem?_eq_getElem inside]

def endings (data : List UInt8) (p len : ℕ) : ℕ :=
  ((data.drop p).take len).countP fun b => b &&& 0x80 = 0

theorem endings_succ (inside : p < data.length) (len : ℕ) :
    endings data p (len + 1) =
      (if data[p] &&& 0x80 = 0 then 1 else 0) + endings data (p + 1) len := by
  rw [endings, List.drop_eq_getElem_cons inside, List.take_succ_cons, List.countP_cons, endings,
    Nat.add_comm]
  simp only [decide_eq_true_eq]

theorem countVarints_eq {len : ℕ} (inside : p + len ≤ data.length) :
    countVarints data p len = .ok (endings data p len) := by
  induction len generalizing p with
  | zero => rfl
  | succ len ih =>
    have here : p < data.length := by omega
    rw [countVarints, byteAt_of_lt here, ih (by omega), endings_succ here]
    rfl

theorem varintLoop_safe (within : stop ≤ data.length) (rounds : ℕ) (r : UInt64) :
    Safe (varintLoop data stop rounds p r) fun result =>
      p < result.2 ∧ result.2 ≤ stop ∧
        endings data p (stop - p) = 1 + endings data result.2 (stop - result.2) := by
  induction rounds generalizing p r with
  | zero => trivial
  | succ rounds ih =>
    rw [varintLoop]
    by_cases inside : p < stop
    · have here : p < data.length := by omega
      obtain ⟨len, rest⟩ := Nat.exists_eq_add_of_lt inside
      have left : stop - (p + 1) = len := by omega
      have all := endings_succ here len
      rw [show len + 1 = stop - p by omega] at all
      rw [if_pos inside, byteAt_of_lt here]
      change Safe (if data[p] &&& 0x80 = 0 then _ else _) _
      by_cases last : data[p] &&& 0x80 = 0
      · rw [if_pos last] at all ⊢
        refine ⟨Nat.lt_succ_self p, inside, ?_⟩
        rw [all, left]
      · rw [if_neg last] at all ⊢
        apply (ih _).mono
        rintro ⟨v, past⟩ ⟨further, fits, same⟩
        refine ⟨by omega, fits, ?_⟩
        rw [all, ← left, same, Nat.zero_add]
    · rw [if_neg inside]
      trivial

theorem getVarint_safe (within : stop ≤ data.length) :
    Safe (getVarint data p stop) fun result =>
      p < result.2 ∧ result.2 ≤ stop ∧
        endings data p (stop - p) = 1 + endings data result.2 (stop - result.2) :=
  varintLoop_safe within 10 0

structure WireField.Lies (w : WireField) (p past stop : ℕ) : Prop where
  starts : p < w.val
  ends : w.val + w.len = past
  inside : past ≤ stop

theorem advance_safe {w : WireField} (starts : p < w.val) (inside : w.val ≤ stop) :
    Safe (w.advance stop) fun result => result.1.Lies p result.2 stop := by
  unfold WireField.advance
  split
  · trivial
  · exact ⟨starts, rfl, by omega⟩

theorem nextField_safe (within : stop ≤ data.length) :
    Safe (nextField data p stop) fun result => result.1.Lies p result.2 stop := by
  apply (getVarint_safe within).bind
  rintro ⟨tag, val⟩ ⟨starts, inside, -⟩
  dsimp only
  split
  · trivial
  split
  · apply (getVarint_safe within).bind
    rintro ⟨_, past⟩ ⟨further, fits, -⟩
    exact ⟨starts, Nat.add_sub_cancel' (Nat.le_of_lt further), fits⟩
  split
  · exact advance_safe starts inside
  split
  · exact advance_safe starts inside
  split
  · apply (getVarint_safe within).bind
    rintro ⟨v, val'⟩ ⟨further, fits, -⟩
    dsimp only
    split
    · trivial
    · exact advance_safe (Nat.lt_trans starts further) fits
  · trivial

inductive Walk (data : List UInt8) (stop : ℕ) : ℕ → List WireField → Prop
  | done {p : ℕ} (past : stop ≤ p) : Walk data stop p []
  | field {p past : ℕ} {w : WireField} {ws : List WireField} (inside : p < stop)
      (next : nextField data p stop = .ok (w, past)) (rest : Walk data stop past ws) :
      Walk data stop p (w :: ws)

theorem Walk.lies {ws : List WireField} (walk : Walk data stop p ws) (within : stop ≤ data.length) :
    ∀ w ∈ ws, w.val + w.len ≤ stop := by
  induction walk with
  | done past => nofun
  | field inside next rest ih =>
    obtain ⟨-, ends, inside⟩ := (nextField_safe within).of_ok next
    intro w member
    rcases List.mem_cons.mp member with rfl | later
    · exact le_of_eq_of_le ends inside
    · exact ih w later

section Fields

variable {Id : Type}

theorem findIn_mem {fields : List (Field Id)} {number lo hi : ℕ} {f : Field Id}
    (found : findIn fields number lo hi = some f) : f ∈ fields := by
  induction lo, hi using findIn.induct fields number with
  | case1 lo hi inside none_ =>
    rw [findIn, if_pos inside, none_] at found
    cases found
  | case2 lo hi inside f' here same =>
    rw [findIn, if_pos inside, here] at found
    simp only [if_pos same] at found
    cases found
    exact List.mem_of_getElem? here
  | case3 lo hi inside f' here other less ih =>
    rw [findIn, if_pos inside, here] at found
    simp only [if_neg other, if_pos less] at found
    exact ih found
  | case4 lo hi inside f' here other less ih =>
    rw [findIn, if_pos inside, here] at found
    simp only [if_neg other, if_neg less] at found
    exact ih found
  | case5 lo hi outside =>
    rw [findIn, if_neg outside] at found
    cases found

def Field.elementCount (data : List UInt8) (f : Field Id) (w : WireField) : ℕ :=
  if f.isPacked w then endings data w.val w.len else 1

theorem elements_eq {f : Field Id} {w : WireField} (inside : w.val + w.len ≤ data.length) :
    f.elements data w = .ok (f.elementCount data w) := by
  unfold Field.elements Field.elementCount
  split
  · exact countVarints_eq inside
  · rfl

def tally (data : List UInt8) (desc : MsgDesc Id) : List WireField → ℕ → ℕ
  | [], _ => 0
  | w :: ws, number =>
    (match desc.find w.number with
      | some f => if f.repeated ∧ f.number = number then f.elementCount data w else 0
      | none => 0) + tally data desc ws number

end Fields

end EspDevkit.Protobuf

/-!
## Measuring a message

Measuring finds the fields of every level that it lets through.
-/

namespace EspDevkit.Protobuf

open Fallible

variable {Id : Type} {t : Target} {descs : Id → MsgDesc Id} {data : List UInt8} {p stop : ℕ}

theorem walk_of_measureLoop {wrap : ℕ → ℕ} {nested : Id → ℕ → ℕ → ℕ → Reading ℕ}
    {desc : MsgDesc Id} {fuel need need' : ℕ}
    (measured : measureLoop t descs data wrap nested desc stop fuel p need = .ok need') :
    ∃ ws, Walk data stop p ws ∧ ∀ w ∈ ws, ∀ f, desc.find w.number = some f → f.type = .message →
      w.wt = 2 → ∃ n n', nested f.msg w.val (w.val + w.len) n = .ok n' := by
  induction fuel generalizing p need with
  | zero => cases measured
  | succ fuel ih =>
    rw [measureLoop] at measured
    by_cases inside : p < stop
    · rw [if_pos inside] at measured
      obtain ⟨⟨w, past⟩, next, rest⟩ := ok_of_bind measured
      simp only at rest
      cases found : desc.find w.number with
      | none =>
        rw [found] at rest
        obtain ⟨ws, walk, deeper⟩ := ih rest
        refine ⟨w :: ws, .field inside next walk, ?_⟩
        rintro w' member f found' message len
        rcases List.mem_cons.mp member with rfl | later
        · cases found.symm.trans found'
        · exact deeper w' later f found' message len
      | some f =>
        rw [found] at rest
        obtain ⟨need₁, -, rest⟩ := ok_of_bind rest
        obtain ⟨need₂, below, rest⟩ := ok_of_bind rest
        obtain ⟨ws, walk, deeper⟩ := ih rest
        refine ⟨w :: ws, .field inside next walk, ?_⟩
        rintro w' member f' found' message len
        rcases List.mem_cons.mp member with rfl | later
        · obtain rfl : f = f' := Option.some.inj (found.symm.trans found')
          rw [if_pos ⟨message, len⟩] at below
          exact ⟨_, _, below⟩
        · exact deeper w' later f' found' message len
    · exact ⟨[], .done (Nat.not_lt.mp inside), nofun⟩

theorem measureLoop_safe {wrap : ℕ → ℕ} {nested : Id → ℕ → ℕ → ℕ → Reading ℕ}
    {desc : MsgDesc Id} (within : stop ≤ data.length)
    (below : ∀ id p stop need, stop ≤ data.length → Safe (nested id p stop need) fun _ => True)
    {fuel need : ℕ} (enough : stop - p < fuel) :
    Safe (measureLoop t descs data wrap nested desc stop fuel p need) fun _ => True := by
  induction fuel generalizing p need with
  | zero => omega
  | succ fuel ih =>
    rw [measureLoop]
    by_cases inside : p < stop
    · rw [if_pos inside]
      apply (nextField_safe within).bind
      rintro ⟨w, past⟩ ⟨starts, ends, fits⟩
      dsimp only at starts ends fits ⊢
      split
      · exact ih (by omega)
      · next f found =>
          apply Safe.chain
          · split
            · rw [elements_eq (by omega)]
              trivial
            · trivial
          intro need
          apply Safe.chain
          · split
            · exact below _ _ _ _ (by omega)
            · trivial
          intro need
          exact ih (by omega)
    · rw [if_neg inside]
      trivial

theorem measure_safe {wrap : ℕ → ℕ} {levels : ℕ} {id : Id} {need : ℕ}
    (within : stop ≤ data.length) :
    Safe (measure t descs data wrap levels id p stop need) fun _ => True := by
  induction levels generalizing id p stop need with
  | zero => trivial
  | succ levels ih =>
    exact measureLoop_safe within (fun _ _ _ _ within => ih within) (Nat.lt_succ_self _)

theorem wrap_add (a b : ℕ) : t.wrap (t.wrap a + b) = t.wrap (a + b) := Nat.mod_add_mod a _ b

theorem measureLoop_wrap {nested exact_ : Id → ℕ → ℕ → ℕ → Reading ℕ} {desc : MsgDesc Id}
    (below : ∀ id p stop need, nested id p stop (t.wrap need) =
      (exact_ id p stop need).map t.wrap) (fuel : ℕ) (need : ℕ) :
    measureLoop t descs data t.wrap nested desc stop fuel p (t.wrap need) =
      (measureLoop t descs data (fun n => n) exact_ desc stop fuel p need).map t.wrap := by
  induction fuel generalizing p need with
  | zero => rfl
  | succ fuel ih =>
    rw [measureLoop, measureLoop]
    by_cases inside : p < stop
    · rw [if_pos inside, if_pos inside]
      cases nextField data p stop with
      | error e => rfl
      | ok found =>
        obtain ⟨w, past⟩ := found
        have message (f : Field Id) (need : ℕ) :
            ((if f.type = .message ∧ w.wt = 2 then
                nested f.msg w.val (w.val + w.len)
                  (t.wrap (t.wrap need + align (descs f.msg).size.toNat))
              else .ok (t.wrap need)) >>=
                measureLoop t descs data t.wrap nested desc stop fuel past) =
              ((if f.type = .message ∧ w.wt = 2 then
                exact_ f.msg w.val (w.val + w.len) (need + align (descs f.msg).size.toNat)
              else .ok need) >>=
                measureLoop t descs data (fun n => n) exact_ desc stop fuel past).map
              t.wrap := by
          split
          · rw [wrap_add, below]
            generalize exact_ f.msg w.val (w.val + w.len) _ = result
            cases result with
            | error e => rfl
            | ok need => exact ih need
          · exact ih need
        dsimp only [bind, Except.bind]
        cases desc.find w.number with
        | none => exact ih need
        | some f =>
          by_cases repeated : f.repeated
          · simp only [if_pos repeated]
            cases f.elements data w with
            | error e => rfl
            | ok count =>
              have same : t.wrap (t.wrap need + count * f.type.elemSize t + 7) =
                  t.wrap (need + count * f.type.elemSize t + 7) := by
                rw [Nat.add_assoc, wrap_add, Nat.add_assoc]
              have rest := message f (need + count * f.type.elemSize t + 7)
              rw [← same] at rest
              exact rest
          · simp only [if_neg repeated]
            exact message f need
    · rw [if_neg inside, if_neg inside]
      rfl

theorem measure_wrap (levels : ℕ) (id : Id) (p stop need : ℕ) :
    measure t descs data t.wrap levels id p stop (t.wrap need) =
      (measure t descs data (fun n => n) levels id p stop need).map t.wrap := by
  induction levels generalizing id p stop need with
  | zero => rfl
  | succ levels ih => exact measureLoop_wrap ih _ need

end EspDevkit.Protobuf
