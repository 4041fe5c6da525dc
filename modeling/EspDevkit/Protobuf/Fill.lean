import EspDevkit.Protobuf.Walk
import Mathlib.Logic.Function.Basic

/-!
# Unpacking stays inside what was measured

Where the measured size did not wrap around to less than the head of the block, the last pass never
takes more than was measured and never stores behind an array's elements; where it did, the arena
ends before it begins.
-/

namespace EspDevkit.Protobuf

open Fallible Function

variable {Id : Type} {t : Target} {descs : Id → MsgDesc Id} {data : List UInt8} {p stop : ℕ}

structure Arena.Fits (t : Target) (a : Arena) : Prop where
  inside : a.cur ≤ a.stop
  small : a.stop < t.modulus

variable {a : Arena} {α β : Type} {desc : MsgDesc Id} {fuel : ℕ} {ws : List WireField}
  {level : Level} {f : Field Id} {w : WireField}

theorem Arena.Fits.left_eq (fits : a.Fits t) : a.left t = a.stop - a.cur := by
  obtain ⟨inside, small⟩ := fits
  have same : a.stop + (t.modulus - a.cur) = a.stop - a.cur + t.modulus := by omega
  rw [Arena.left, Nat.mod_eq_of_lt (Nat.lt_of_le_of_lt inside small), same, Target.wrap,
    Nat.add_mod_right, Nat.mod_eq_of_lt (Nat.lt_of_le_of_lt (Nat.sub_le _ _) small)]

theorem arenaAlloc_ensures (fits : a.Fits t) (size : ℕ) :
    Ensures (arenaAlloc t size) (fun _ a' => a'.Fits t ∧ a'.stop = a.stop)
      (fun _ a' => a'.Fits t ∧ a'.stop = a.stop) a := by
  unfold arenaAlloc
  simp only [ensures_bind, ensures_get]
  apply ensures_require
  · intro enough
    rw [fits.left_eq] at enough
    have inside := fits.inside
    simp only [ensures_modify, ensures_pure, and_true]
    exact ⟨by dsimp only; omega, fits.small⟩
  · exact fun _ => ⟨fits, rfl⟩

theorem ensures_reads {x : Reading α} {post : α → Prop}
    (safe : Safe x post) :
    Ensures (reads x) (fun v a' => post v ∧ a' = a) (fun _ a' => a' = a) a := by
  rcases x with (_ | _) | v
  · exact rfl
  · exact safe.elim
  · exact ⟨safe, rfl⟩

theorem reads_bind (v : α) (next : α → Decoding β) :
    (reads (.ok v) >>= next) = next v := rfl

theorem unchecked_bind (v : α) (next : α → Decoding β) :
    (unchecked (.ok v) >>= next) = next v := rfl

theorem countLoop_eq (walk : Walk data stop p ws)
    (within : stop ≤ data.length) (enough : stop - p < fuel) (counts : ℕ → ℕ) :
    countLoop data desc stop fuel p counts =
      pure fun number => counts number + tally data desc ws number := by
  induction walk generalizing fuel counts with
  | done past =>
    obtain ⟨fuel, rfl⟩ := Nat.exists_eq_succ_of_ne_zero (Nat.ne_zero_of_lt enough)
    rw [countLoop, if_neg (Nat.not_lt.mpr past)]
    rfl
  | @field p past w ws inside next rest ih =>
    obtain ⟨fuel, rfl⟩ := Nat.exists_eq_succ_of_ne_zero (Nat.ne_zero_of_lt enough)
    obtain ⟨starts, ends, fits⟩ := (nextField_safe within).of_ok next
    dsimp only at starts ends fits
    have less : stop - past < fuel := by omega
    rw [countLoop, if_pos inside, next, reads_bind]
    simp only [tally]
    cases desc.find w.number with
    | none =>
      simp only [Nat.zero_add]
      exact ih less counts
    | some f =>
      by_cases repeated : f.repeated
      · simp only [if_pos repeated]
        rw [elements_eq (by omega), reads_bind, ih less]
        congr 1
        funext number
        by_cases same : f.number = number
        · subst same
          rw [update_self, if_pos ⟨repeated, rfl⟩, Nat.add_assoc]
        · rw [update_of_ne (Ne.symm same), if_neg fun both => same both.2,
            Nat.zero_add]
      · simp only [if_neg repeated]
        rw [ih less]
        congr 1
        funext number
        rw [if_neg fun both => repeated both.1, Nat.zero_add]

/-- The array of a field was taken for at least so many elements and is empty. -/
def Level.Taken (level : Level) (number total : ℕ) : Prop :=
  level.counts number = 0 ∧ total ≤ level.room number

theorem reserve_taken {number total : ℕ} (here : level.counts number = total) :
    (level.reserve number).Taken number total := by
  refine ⟨update_self .., ?_⟩
  have room : (level.reserve number).room number = level.counts number := update_self ..
  exact Nat.le_of_eq (room.trans here).symm

theorem reserve_counts {number n : ℕ} (other : n ≠ number) :
    (level.reserve number).counts n = level.counts n := update_of_ne other ..

theorem reserve_room {number n : ℕ} (other : n ≠ number) :
    (level.reserve number).room n = level.room n := update_of_ne other ..

theorem takeArrays_ensures {fields : List (Field Id)} {total : ℕ → ℕ}
    (fits : a.Fits t)
    (counted : ∀ n, level.Taken n (total n) ∨ level.counts n = total n) :
    Ensures (takeArrays t fields level)
      (fun level' a' => (a'.Fits t ∧ a'.stop = a.stop) ∧
        (∀ n, level.Taken n (total n) → level'.Taken n (total n)) ∧
        ∀ f ∈ fields, f.repeated → level'.Taken f.number (total f.number))
      (fun _ a' => a'.Fits t ∧ a'.stop = a.stop) a := by
  induction fields generalizing level a with
  | nil => exact ⟨⟨fits, rfl⟩, fun _ => id, List.forall_mem_nil _⟩
  | cons f fields ih =>
    rw [takeArrays]
    split
    · next some_ =>
        obtain ⟨repeated, positive⟩ := some_
        have here : level.counts f.number = total f.number := by
          rcases counted f.number with taken | same
          · exact absurd taken.1 positive
          · exact same
        rw [ensures_bind]
        apply (arenaAlloc_ensures fits _).mono _ fun _ _ => id
        rintro _ a' ⟨fits', stop_eq⟩
        have taken := reserve_taken here
        have kept (n : ℕ) (other : n ≠ f.number) (total : ℕ) :
            (level.reserve f.number).Taken n total ↔ level.Taken n total := by
          rw [Level.Taken, reserve_counts other, reserve_room other, Level.Taken]
        apply (ih fits' _).mono
        · rintro level' a'' ⟨⟨fits'', stop_eq'⟩, before, after⟩
          refine ⟨⟨fits'', stop_eq'.trans stop_eq⟩, fun n was => ?_, ?_⟩
          · by_cases same : n = f.number
            · exact before n (same ▸ taken)
            · exact before n ((kept n same _).mpr was)
          · rintro g member repeated'
            rcases List.mem_cons.mp member with rfl | later
            · exact before _ taken
            · exact after g later repeated'
        · rintro _ a'' ⟨fits'', stop_eq'⟩
          exact ⟨fits'', stop_eq'.trans stop_eq⟩
        · intro n
          by_cases same : n = f.number
          · exact .inl (same ▸ taken)
          · rw [kept n same, reserve_counts same]
            exact counted n
    · next none_ =>
        apply (ih fits counted).mono _ fun _ _ => id
        rintro level' a' ⟨fits', before, after⟩
        refine ⟨fits', before, ?_⟩
        rintro g member repeated
        rcases List.mem_cons.mp member with rfl | later
        · apply before
          have zero : level.counts g.number = 0 := by
            by_contra positive
            exact none_ ⟨repeated, positive⟩
          rcases counted g.number with taken | same
          · exact taken
          · exact ⟨zero, by omega⟩
        · exact after g later repeated

theorem element_eq {number : ℕ} (enough : level.counts number < level.room number) :
    level.element number = pure (level.another number) := if_pos enough

/-- A level goes on to one with at most so many more elements of a field. -/
structure Level.Grows (level level' : Level) (number more : ℕ) : Prop where
  room : level'.room = level.room
  others : ∀ n, n ≠ number → level'.counts n = level.counts n
  count : level'.counts number ≤ level.counts number + more

theorem Level.Grows.trans {level' level'' : Level} {number more more' : ℕ}
    (first : level.Grows level' number more) (rest : level'.Grows level'' number more') :
    level.Grows level'' number (more + more') where
  room := rest.room.trans first.room
  others n other := (rest.others n other).trans (first.others n other)
  count := by
    have := first.count
    have := rest.count
    omega

theorem grows_another (level : Level) (number : ℕ) :
    level.Grows (level.another number) number 1 where
  room := rfl
  others _ other := update_of_ne other ..
  count := Nat.le_of_eq (update_self number _ level.counts)

theorem grows_store (level : Level) (number : ℕ) (value : Value) :
    level.Grows (level.store number value) number 0 :=
  ⟨rfl, fun _ _ => rfl, Nat.le_refl _⟩

theorem packedLoop_ensures (within : stop ≤ data.length) {q : ℕ}
    (enough : stop - q < fuel)
    (room : level.counts f.number + endings data q (stop - q) ≤ level.room f.number) :
    Ensures (packedLoop data f stop fuel q level)
      (fun level' a' => level.Grows level' f.number (endings data q (stop - q)) ∧ a' = a)
      (fun _ a' => a' = a) a := by
  induction fuel generalizing q level with
  | zero => omega
  | succ fuel ih =>
    rw [packedLoop]
    by_cases inside : q < stop
    · rw [if_pos inside, ensures_bind]
      apply (ensures_reads (getVarint_safe within)).mono _ fun _ _ => id
      rintro ⟨v, past⟩ a ⟨⟨further, fits, one⟩, rfl⟩
      dsimp only at further fits one ⊢
      have here : level.counts f.number < level.room f.number := by omega
      rw [element_eq here, ensures_bind, ensures_pure]
      have first := (grows_another level f.number).trans
        (grows_store (level.another f.number) f.number (.scalar (f.type.setScalar v)))
      have rest : ((level.another f.number).store f.number (.scalar (f.type.setScalar v))).counts
          f.number + endings data past (stop - past) ≤ level.room f.number := by
        have count := first.count
        omega
      rw [one]
      apply (ih (by omega) rest).mono _ fun _ _ => id
      rintro level' a' ⟨grows, same⟩
      exact ⟨first.trans grows, same⟩
    · rw [if_neg inside]
      exact ⟨⟨rfl, fun _ _ => rfl, Nat.le_add_right _ _⟩, rfl⟩

/-- What a computation does to the arena, whether it gives a value or stops. -/
def Keeps {α : Type} (t : Target) (x : Decoding α) (a : Arena) : Prop :=
  Ensures x (fun _ a' => a'.Fits t ∧ a'.stop = a.stop) (fun _ a' => a'.Fits t ∧ a'.stop = a.stop) a

theorem decodeValue_keeps {nested : Id → ℕ → ℕ → Decoding (List (ℕ × Value))}
    (inside : w.val + w.len ≤ data.length)
    (below : f.type = .message → w.wt = 2 → ∀ a : Arena, a.Fits t →
      Keeps t (nested f.msg w.val (w.val + w.len)) a) (fits : a.Fits t) :
    Keeps t (decodeValue t descs data nested f w) a := by
  have scalar : Keeps t (do
      require (w.wt = 0) ()
      let found ← reads (getVarint data w.val (w.val + w.len))
      return Value.scalar (f.type.setScalar found.1)) a := by
    apply ensures_bind.mpr
    apply ensures_require
    · intro _
      apply ensures_bind.mpr
      apply (ensures_reads (getVarint_safe inside)).mono
      · rintro _ _ ⟨-, rfl⟩
        exact ⟨fits, rfl⟩
      · rintro _ _ rfl
        exact ⟨fits, rfl⟩
    · exact fun _ => ⟨fits, rfl⟩
  unfold decodeValue
  cases type : f.type
  case bytes =>
    apply ensures_bind.mpr
    apply ensures_require
    · exact fun _ => ⟨fits, rfl⟩
    · exact fun _ => ⟨fits, rfl⟩
  case message =>
    apply ensures_bind.mpr
    apply ensures_require
    · intro len
      apply ensures_bind.mpr
      apply (arenaAlloc_ensures fits _).mono _ fun _ _ => id
      rintro place a' ⟨fits', stop_eq⟩
      apply ensures_bind.mpr
      apply (below type len a' fits').mono
      · rintro _ a'' ⟨fits'', stop_eq'⟩
        exact ⟨fits'', stop_eq'.trans stop_eq⟩
      · rintro _ a'' ⟨fits'', stop_eq'⟩
        exact ⟨fits'', stop_eq'.trans stop_eq⟩
    · exact fun _ => ⟨fits, rfl⟩
  all_goals
    rw [type] at scalar
    exact scalar

def Level.HasRoom (level : Level) (data : List UInt8) (desc : MsgDesc Id) (ws : List WireField) :
    Prop :=
  ∀ f ∈ desc.fields, f.repeated →
    level.counts f.number + tally data desc ws f.number ≤ level.room f.number

theorem Level.HasRoom.next {level' : Level} (room : level.HasRoom data desc (w :: ws))
    (found : desc.find w.number = some f) {more : ℕ} (grows : level.Grows level' f.number more)
    (few : more ≤ if f.repeated then f.elementCount data w else 0) :
    level'.HasRoom data desc ws := by
  intro g member repeated
  have before := room g member repeated
  rw [tally, found] at before
  dsimp only at before
  rw [grows.room]
  by_cases same : f.number = g.number
  · have count := grows.count
    rw [← same] at before ⊢
    by_cases repeated' : f.repeated
    · rw [if_pos repeated'] at few
      rw [if_pos ⟨repeated', rfl⟩] at before
      omega
    · rw [if_neg repeated'] at few
      omega
  · rw [grows.others _ (Ne.symm same)]
    rw [if_neg fun both => same both.2] at before
    omega

theorem Level.HasRoom.skip (room : level.HasRoom data desc (w :: ws))
    (unknown : desc.find w.number = none) : level.HasRoom data desc ws := by
  intro g member repeated
  have before := room g member repeated
  rw [tally, unknown, Nat.zero_add] at before
  exact before

/-- What `measure` says of the messages among the fields of a level. -/
def Nested (t : Target) (desc : MsgDesc Id) (ws : List WireField)
    (nested : Id → ℕ → ℕ → Decoding (List (ℕ × Value))) : Prop :=
  ∀ w ∈ ws, ∀ f, desc.find w.number = some f → f.type = .message → w.wt = 2 →
    ∀ a : Arena, a.Fits t → Keeps t (nested f.msg w.val (w.val + w.len)) a

theorem Keeps.bind {x : Decoding α} {next : α → Decoding β}
    (first : Keeps t x a) (rest : ∀ v a', a'.Fits t → Keeps t (next v) a') :
    Keeps t (x >>= next) a := by
  apply ensures_bind.mpr
  apply Ensures.mono first
  · rintro v a' ⟨fits', stop_eq⟩
    apply (rest v a' fits').mono
    · exact fun _ _ after => ⟨after.1, after.2.trans stop_eq⟩
    · exact fun _ _ after => ⟨after.1, after.2.trans stop_eq⟩
  · exact fun _ _ after => after

theorem storeLoop_keeps {nested : Id → ℕ → ℕ → Decoding (List (ℕ × Value))}
    (walk : Walk data stop p ws) (within : stop ≤ data.length)
    (below : Nested t desc ws nested) (enough : stop - p < fuel)
    (room : level.HasRoom data desc ws) (fits : a.Fits t) :
    Keeps t (storeLoop t descs data nested desc stop fuel p level) a := by
  induction walk generalizing fuel level a with
  | done past =>
    obtain ⟨fuel, rfl⟩ := Nat.exists_eq_succ_of_ne_zero (Nat.ne_zero_of_lt enough)
    rw [storeLoop, if_neg (Nat.not_lt.mpr past)]
    exact ⟨fits, rfl⟩
  | @field p past w ws inside next rest ih =>
    obtain ⟨fuel, rfl⟩ := Nat.exists_eq_succ_of_ne_zero (Nat.ne_zero_of_lt enough)
    obtain ⟨starts, ends, inside'⟩ := (nextField_safe within).of_ok next
    dsimp only at starts ends inside'
    have less : stop - past < fuel := by omega
    have later : Nested t desc ws nested :=
      fun w member => below w (List.mem_cons_of_mem _ member)
    have go {level' : Level} (room' : level'.HasRoom data desc ws) {a' : Arena}
        (fits' : a'.Fits t) :
        Keeps t (storeLoop t descs data nested desc stop fuel past level') a' :=
      ih later less room' fits'
    rw [storeLoop, if_pos inside, next, unchecked_bind]
    dsimp only
    cases found : desc.find w.number with
    | none => exact go (room.skip found) fits
    | some f =>
      have value {a : Arena} (fits : a.Fits t) :
          Keeps t (decodeValue t descs data nested f w) a :=
        decodeValue_keeps (by omega)
          (fun message len => below w List.mem_cons_self f found message len) fits
      dsimp only
      by_cases single : f.repeated = false
      · rw [if_pos single]
        apply (value fits).bind
        intro v a' fits'
        exact go (room.next found (grows_store level f.number v) (Nat.zero_le _)) fits'
      · rw [if_neg single]
        have repeated : f.repeated := by simpa using single
        have member : f ∈ desc.fields := findIn_mem found
        have here := room f member repeated
        rw [tally, found] at here
        dsimp only at here
        rw [if_pos ⟨repeated, rfl⟩] at here
        by_cases alone : f.isPacked w = false
        · have one : f.elementCount data w = 1 := by
            rw [Field.elementCount, alone]
            rfl
          rw [if_pos alone, element_eq (by omega)]
          apply (value fits).bind
          intro v a' fits'
          refine go (room.next found ((grows_another level f.number).trans
            (grows_store (level.another f.number) f.number v)) (Nat.le_of_eq ?_)) fits'
          rw [if_pos repeated, one]
        · have packed : f.isPacked w := by simpa using alone
          have many : f.elementCount data w = endings data w.val (w.val + w.len - w.val) := by
            rw [Field.elementCount, if_pos packed, Nat.add_sub_cancel_left]
          rw [if_neg alone]
          apply ensures_bind.mpr
          apply (packedLoop_ensures (by omega) (by omega) (by omega)).mono
          · rintro level' _ ⟨grows, rfl⟩
            refine go (room.next found grows (Nat.le_of_eq ?_)) fits
            rw [if_pos repeated, many]
          · rintro _ _ rfl
            exact ⟨fits, rfl⟩

/-- Where `measure` gives a size, `decode` stays in the arena. -/
theorem decode_keeps {wrap : ℕ → ℕ} {levels : ℕ} {id : Id} {need need' : ℕ}
    (within : stop ≤ data.length)
    (measured : measure t descs data wrap levels id p stop need = .ok need')
    (fits : a.Fits t) : Keeps t (decode t descs data levels id p stop) a := by
  induction levels generalizing id p stop need need' a with
  | zero => cases measured
  | succ levels ih =>
    obtain ⟨ws, walk, deeper⟩ := walk_of_measureLoop measured
    have below : Nested t (descs id) ws (decode t descs data levels) := by
      intro w member f found message len a fits
      obtain ⟨n, n', measured⟩ := deeper w member f found message len
      exact ih (Nat.le_trans (walk.lies within w member) within) measured fits
    have enough : stop - p < stop - p + 1 := Nat.lt_succ_self _
    rw [decode, countLoop_eq walk within enough]
    unfold Keeps
    simp only [Nat.zero_add]
    rw [ensures_bind, ensures_pure, ensures_bind]
    apply (takeArrays_ensures fits fun n => .inr rfl).mono _ fun _ _ after => after
    rintro level a' ⟨⟨fits', stop_eq⟩, -, taken⟩
    have room : level.HasRoom data (descs id) ws := by
      intro f member repeated
      obtain ⟨empty, enough⟩ := taken f member repeated
      rw [empty, Nat.zero_add]
      exact enough
    apply ensures_bind.mpr
    apply (storeLoop_keeps walk within below enough room fits').mono
    · exact fun _ _ after => ⟨after.1, after.2.trans stop_eq⟩
    · exact fun _ _ after => ⟨after.1, after.2.trans stop_eq⟩

end EspDevkit.Protobuf
