import EspDevkit.Protobuf.Fill
import Mathlib.Tactic.Ring

/-!
# The block of a message

`pb_unpack` fills a block of the size that it measured.  The size is added up in a `size_t` and may
wrap around: the message stays inside the block if and only if what is left of the size has room for
the head of the block and the message itself.
-/

namespace EspDevkit.Protobuf

open Fallible List

variable {Id : Type} {t : Target} {descs : Id → MsgDesc Id} {data : List UInt8} {p stop : ℕ}

def Arena.Onward (a a' : Arena) : Prop := a.cur ≤ a'.cur

instance : IsPreorder Arena Arena.Onward where
  refl a := Nat.le_refl a.cur
  trans _ _ _ := Nat.le_trans

section Onward

variable {a : Arena}

theorem onward_reads {α : Type} {x : Reading α} : Within Arena.Onward (reads x) a :=
  refl_of Arena.Onward a

theorem onward_unchecked {α : Type} {x : Reading α} : Within Arena.Onward (unchecked x) a := by
  cases x with
  | ok v => exact within_pure
  | error e => exact within_fault

theorem onward_arenaAlloc (size : ℕ) : Within Arena.Onward (arenaAlloc t size) a := by
  apply Within.get
  apply Within.require
  intro _
  apply Within.modify
  · exact Nat.le_add_right _ _
  · exact within_pure

theorem onward_countLoop {desc : MsgDesc Id} {fuel : ℕ} {counts : ℕ → ℕ} :
    Within Arena.Onward (countLoop data desc stop fuel p counts) a := by
  induction fuel generalizing p counts a with
  | zero => exact within_fault
  | succ fuel ih =>
    rw [countLoop]
    split
    · apply onward_reads.bind
      rintro ⟨w, past⟩ a' -
      dsimp only
      split
      · exact ih
      · split
        · apply onward_reads.bind
          exact fun _ _ _ => ih
        · exact ih
    · exact within_pure

theorem onward_takeArrays {fields : List (Field Id)} {level : Level} :
    Within Arena.Onward (takeArrays t fields level) a := by
  induction fields generalizing level a with
  | nil => exact within_pure
  | cons f fields ih =>
    rw [takeArrays]
    split
    · apply (onward_arenaAlloc _).bind
      exact fun _ _ _ => ih
    · exact ih

theorem onward_element {level : Level} {number : ℕ} :
    Within Arena.Onward (level.element number) a := by
  unfold Level.element
  split
  · exact within_pure
  · exact within_fault

variable {nested : Id → ℕ → ℕ → Decoding (List (ℕ × Value))}

theorem onward_decodeValue
    (below : ∀ id p stop a, Within Arena.Onward (nested id p stop) a) {f : Field Id}
    {w : WireField} : Within Arena.Onward (decodeValue t descs data nested f w) a := by
  unfold decodeValue
  split
  · apply Within.require
    exact fun _ => within_pure
  · apply Within.require
    intro _
    apply (onward_arenaAlloc _).bind
    intro place a' _
    apply (below _ _ _ a').bind
    exact fun _ _ _ => within_pure
  · apply Within.require
    intro _
    apply onward_reads.bind
    exact fun _ _ _ => within_pure

theorem onward_packedLoop {f : Field Id} {fuel q : ℕ} {level : Level} :
    Within Arena.Onward (packedLoop data f stop fuel q level) a := by
  induction fuel generalizing q level a with
  | zero => exact within_fault
  | succ fuel ih =>
    rw [packedLoop]
    split
    · apply onward_reads.bind
      rintro ⟨v, past⟩ a' -
      apply onward_element.bind
      exact fun _ _ _ => ih
    · exact within_pure

theorem onward_storeLoop (below : ∀ id p stop a, Within Arena.Onward (nested id p stop) a)
    {desc : MsgDesc Id} {fuel : ℕ} {level : Level} :
    Within Arena.Onward (storeLoop t descs data nested desc stop fuel p level) a := by
  induction fuel generalizing p level a with
  | zero => exact within_fault
  | succ fuel ih =>
    rw [storeLoop]
    split
    · apply onward_unchecked.bind
      rintro ⟨w, past⟩ a' -
      dsimp only
      split
      · exact ih
      · split
        · apply (onward_decodeValue below).bind
          exact fun _ _ _ => ih
        · split
          · apply onward_element.bind
            intro level' a'' _
            apply (onward_decodeValue below).bind
            exact fun _ _ _ => ih
          · apply onward_packedLoop.bind
            exact fun _ _ _ => ih
    · exact within_pure

theorem onward_decode {levels : ℕ} {id : Id} :
    Within Arena.Onward (decode t descs data levels id p stop) a := by
  induction levels generalizing id p stop a with
  | zero => exact within_fault
  | succ levels ih =>
    rw [decode]
    apply onward_countLoop.bind
    intro counts a₁ _
    apply onward_takeArrays.bind
    intro level a₂ _
    apply (onward_storeLoop fun _ _ _ _ => ih).bind
    exact fun _ _ _ => within_pure

end Onward

theorem needed_safe (wrap : ℕ → ℕ) (id : Id) :
    Safe (needed t descs data wrap id) fun _ => True :=
  measure_safe (Nat.le_refl _)

theorem needed_wrap (id : Id) :
    needed t descs data t.wrap id = (needed t descs data (fun n => n) id).map t.wrap :=
  measure_wrap ..

theorem head_le_of_ensures {id : Id} {need : ℕ}
    (ensures : Ensures (fill t descs data id) (fun _ a => a.cur ≤ need) (fun _ a => a.cur ≤ need)
      { cur := headSize t descs id, stop := need }) : headSize t descs id ≤ need := by
  have onward : Within Arena.Onward (fill t descs data id)
      { cur := headSize t descs id, stop := need } := onward_decode
  rcases ensures.apply with ⟨_, -, inside⟩ | ⟨_, -, inside⟩
  · exact Nat.le_trans onward inside
  · exact Nat.le_trans onward inside

theorem getVarint_last {b : UInt8} {v : UInt64} (inside : p < stop) (here : data[p]? = some b)
    (last : b &&& 0x80 = 0)
    (value : 0 ||| (b &&& 0x7f).toUInt64 <<< UInt64.ofNat (7 * (9 - 9)) = v) :
    getVarint data p stop = .ok (v, p + 1) := by
  rw [getVarint, varintLoop, if_pos inside, byteAt, here, ← value]
  exact if_pos last

def emptyFields (count : ℕ) : List UInt8 :=
  (List.range (2 * count)).map fun i => if i % 2 = 0 then 0x0a else 0x00

theorem nextField_emptyFields {count i : ℕ} (inside : i < count) :
    nextField (emptyFields count) (2 * i) (2 * count) =
      .ok ({ number := 1, wt := 2, val := 2 * i + 2, len := 0 }, 2 * i + 2) := by
  have tag : (emptyFields count)[2 * i]? = some 0x0a := by
    rw [emptyFields, List.getElem?_map, List.getElem?_range (by omega)]
    simp only [Option.map_some, Nat.mul_mod_right, if_true]
  have len : (emptyFields count)[2 * i + 1]? = some 0x00 := by
    have odd : (2 * i + 1) % 2 = 1 := by omega
    rw [emptyFields, List.getElem?_map, List.getElem?_range (by omega)]
    simp only [Option.map_some, odd, Nat.one_ne_zero, if_false]
  have number : ((10 : UInt64) >>> 3).toNat = 1 := by decide
  have wt : ((10 : UInt64) &&& 7).toNat = 2 := by decide
  have first : getVarint (emptyFields count) (2 * i) (2 * count) = .ok (10, 2 * i + 1) :=
    getVarint_last (by omega) tag (by decide) (by decide)
  have second : getVarint (emptyFields count) (2 * i + 1) (2 * count) = .ok (0, 2 * i + 2) :=
    getVarint_last (by omega) len (by decide) (by decide)
  rw [nextField, first]
  simp only [bind, Except.bind, number, wt, second, WireField.advance]
  rfl

theorem find_single {size : UInt16} {f : Field Id}
    (sorted : [f].Pairwise fun f g => f.number < g.number) :
    MsgDesc.find ⟨size, [f], sorted⟩ f.number = some f := by
  rw [MsgDesc.find, findIn]
  simp

theorem measure_none (wrap : ℕ → ℕ) (levels : ℕ) (id : Id) (need : ℕ) :
    measure t descs data wrap (levels + 1) id p p need = .ok need := by
  rw [measure, measureLoop, if_neg (Nat.lt_irrefl p)]

def listing (size : UInt16) (fields : List (Field Bool))
    (sorted : fields.Pairwise fun f g => f.number < g.number) : Bool → MsgDesc Bool
  | false =>
    { size := 8
      fields := [{ number := 1, type := .message, repeated := true, oneof := false, msg := true }]
      sorted := pairwise_singleton _ _ }
  | true => { size, fields, sorted }

def esp32 : Target := ⟨4⟩

section Listing

variable {size : UInt16} {fields : List (Field Bool)}
  {sorted : fields.Pairwise fun f g => f.number < g.number}

theorem measureLoop_listing {count i rest : ℕ} (all : i + rest = count) {fuel : ℕ}
    (enough : rest < fuel) (levels need : ℕ) :
    measureLoop esp32 (listing size fields sorted) (emptyFields count) (fun n => n)
        (measure esp32 (listing size fields sorted) (emptyFields count) (fun n => n) (levels + 1))
        (listing size fields sorted false) (2 * count) fuel (2 * i) need =
      .ok (need + rest * (4 + 7 + align size.toNat)) := by
  induction rest generalizing i fuel need with
  | zero =>
    obtain ⟨fuel, rfl⟩ := Nat.exists_eq_succ_of_ne_zero (Nat.ne_zero_of_lt enough)
    rw [measureLoop, if_neg (by omega), Nat.zero_mul, Nat.add_zero]
  | succ rest ih =>
    obtain ⟨fuel, rfl⟩ := Nat.exists_eq_succ_of_ne_zero (Nat.ne_zero_of_lt enough)
    have found : (listing size fields sorted false).find 1 =
        some { number := 1, type := .message, repeated := true, oneof := false, msg := true } :=
      find_single (pairwise_singleton _ _)
    have one : need + 1 * 4 + 7 + align size.toNat + rest * (4 + 7 + align size.toNat) =
        need + (rest + 1) * (4 + 7 + align size.toNat) := by
      ring
    rw [measureLoop, if_pos (by omega), nextField_emptyFields (by omega)]
    simp only [bind, Except.bind, found, if_true, Field.elements, measure_none]
    rw [← one]
    exact ih (i := i + 1) (by omega) (by omega) _

theorem headSize_listing : headSize esp32 (listing size fields sorted) false = 16 := by
  have size : (8 : UInt16).toNat = 8 := rfl
  simp only [headSize, listing, esp32, align, size]

theorem needed_listing (count : ℕ) :
    needed esp32 (listing size fields sorted) (emptyFields count) (fun n => n) false =
      .ok (16 + count * (4 + 7 + align size.toNat)) := by
  have length : (emptyFields count).length = 2 * count := by
    rw [emptyFields, length_map, length_range]
  have enough : count < 2 * count - 0 + 1 := by omega
  rw [needed, measure, length, headSize_listing]
  exact measureLoop_listing (Nat.zero_add count) enough 15 16

theorem short_listing {need : ℕ} (short : need < 16) (count : ℕ) :
    ¬Ensures (fill esp32 (listing size fields sorted) (emptyFields count) false)
      (fun _ a => a.cur ≤ need) (fun _ a => a.cur ≤ need)
      { cur := headSize esp32 (listing size fields sorted) false, stop := need } := by
  intro ensures
  have head := head_le_of_ensures ensures
  rw [headSize_listing] at head
  omega

end Listing

def bytesFields (count : ℕ) : List (Field Bool) :=
  (List.range count).map fun i =>
    { number := i + 1, type := .bytes, repeated := false, oneof := false, msg := true }

theorem bytesFields_sorted (count : ℕ) :
    (bytesFields count).Pairwise fun f g => f.number < g.number := by
  rw [bytesFields, pairwise_map]
  apply (pairwise_lt_range).imp
  intro i j less
  exact Nat.succ_lt_succ less

end EspDevkit.Protobuf
