import FirmwareFuzz.Lib.CSearch

/-!
# C structs

A struct of arrays of characters is one block, a member (`Field`) a range of
its cells. An access to a member stays inside of the member by the rules of C,
and inside of the struct in a flat memory (`Bounds`): a string too long for
its member goes on into the next ones.

A member reads back what is written to it (`Field.room_write`), and a write
inside of a member leaves the other ones as they are
(`Field.room_write_of_disjoint`); in any case it leaves what comes before it
(`Field.take_write`).
-/

namespace CLang

/-- What an access to a member may touch. -/
inductive Bounds
  | field
  | object
  deriving DecidableEq, Repr

/-- The member of `size` cells at the distance `off`. -/
structure Field where
  off : ℕ
  size : ℕ
  deriving DecidableEq, Repr

namespace Field

/-- The cells within reach of a pointer to the member. -/
def room (f : Field) (b : Bounds) (obj : List UInt8) : List UInt8 :=
  match b with
  | .field => (obj.drop f.off).take f.size
  | .object => obj.drop f.off

/-- The struct after writing `data` to the member, from the index `i` on. -/
def write (f : Field) (b : Bounds) (obj : List UInt8) (i : ℕ) (data : List UInt8) :
    Except Fault (List UInt8) :=
  if i + data.length ≤ (f.room b obj).length then copyTo obj (f.off + i) data
  else .error .outOfBounds

/-- `strcpy(obj->f, src)`. -/
def strcpy (f : Field) (b : Bounds) (obj src : List UInt8) : Except Fault (List UInt8) := do
  f.write b obj 0 ((← strText src) ++ [0])

variable {f g : Field} {b : Bounds} {obj obj' data : List UInt8} {i k : ℕ}

theorem length_room_field (h : f.off + f.size ≤ obj.length) :
    (f.room .field obj).length = f.size := by
  rw [room, List.length_take, List.length_drop]
  omega

theorem write_eq_ok_iff : f.write b obj i data = .ok obj' ↔
    i + data.length ≤ (f.room b obj).length ∧ f.off + i + data.length ≤ obj.length ∧
      obj.take (f.off + i) ++ data ++ obj.drop (f.off + i + data.length) = obj' := by
  rw [write, copyTo]
  split_ifs with h h'
  · simp [h, h']
  · simp [h']
  · simp [h]

/-- A write succeeds within the cells of the member. -/
theorem exists_write_iff (h : f.off + f.size ≤ obj.length) :
    (∃ obj', f.write .field obj i data = .ok obj') ↔ i + data.length ≤ f.size := by
  simp only [write_eq_ok_iff, length_room_field h]
  exact ⟨fun ⟨_, hi, _⟩ => hi, fun hi => ⟨_, hi, by omega, rfl⟩⟩

theorem length_write (h : f.write b obj i data = .ok obj') : obj'.length = obj.length := by
  obtain ⟨-, hlen, rfl⟩ := write_eq_ok_iff.1 h
  simp only [List.length_append, List.length_take, List.length_drop]
  omega

/-- A write, and then what can be done with any struct of the same length. -/
theorem exists_write_bind_iff {α : Type} {k : List UInt8 → Except Fault α} {c : Prop}
    (h : f.off + f.size ≤ obj.length)
    (hk : ∀ obj', obj'.length = obj.length → ((∃ a, k obj' = .ok a) ↔ c)) :
    (∃ a, f.write .field obj i data >>= k = .ok a) ↔ i + data.length ≤ f.size ∧ c := by
  simp only [Except.bind_eq_ok_iff]
  constructor
  · rintro ⟨a, obj', hw, ha⟩
    exact ⟨(exists_write_iff h).1 ⟨obj', hw⟩, (hk obj' (length_write hw)).1 ⟨a, ha⟩⟩
  · rintro ⟨hi, hc⟩
    obtain ⟨obj', hw⟩ := (exists_write_iff h).2 hi
    obtain ⟨a, ha⟩ := (hk obj' (length_write hw)).2 hc
    exact ⟨a, obj', hw, ha⟩

/-- What comes before a write stays. -/
theorem take_write (h : f.write b obj i data = .ok obj') (hk : k ≤ f.off + i) :
    obj'.take k = obj.take k := by
  obtain ⟨-, hlen, rfl⟩ := write_eq_ok_iff.1 h
  have hk' : k ≤ (obj.take (f.off + i)).length := by
    rw [List.length_take]
    omega
  rw [List.append_assoc, List.take_append_of_le_length hk', List.take_take, Nat.min_eq_left hk]

/-- What comes behind a write stays. -/
theorem drop_write (h : f.write b obj i data = .ok obj') (hk : f.off + i + data.length ≤ k) :
    obj'.drop k = obj.drop k := by
  obtain ⟨-, hlen, rfl⟩ := write_eq_ok_iff.1 h
  have hlen' : (obj.take (f.off + i) ++ data).length = f.off + i + data.length := by
    rw [List.length_append, List.length_take]
    omega
  rw [List.drop_append, List.drop_of_length_le (by omega), List.nil_append, List.drop_drop, hlen']
  congr 1
  omega

/-- A write inside of a member leaves the other members. -/
theorem room_write_of_disjoint (h : f.write .field obj i data = .ok obj')
    (hfg : f.off + f.size ≤ g.off ∨ g.off + g.size ≤ f.off) :
    g.room .field obj' = g.room .field obj := by
  have hi : i + data.length ≤ f.size := by
    have := (write_eq_ok_iff.1 h).1
    rw [room, List.length_take] at this
    omega
  rcases hfg with hle | hle
  · rw [room, room, drop_write h (by omega)]
  · rw [room, room, List.take_drop, List.take_drop, take_write h (by omega)]

/-- A member reads back what is written to it. -/
theorem room_write (h : f.write b obj i data = .ok obj') :
    f.room b obj' = (f.room b obj).take i ++ data ++ (f.room b obj).drop (i + data.length) := by
  obtain ⟨hi, hlen, rfl⟩ := write_eq_ok_iff.1 h
  have hpre : (obj.take (f.off + i) ++ data ++ obj.drop (f.off + i + data.length)).drop f.off =
      (obj.drop f.off).take i ++ data ++ (obj.drop f.off).drop (i + data.length) := by
    rw [List.append_assoc, List.append_assoc, List.drop_append_of_le_length, List.drop_take,
      Nat.add_sub_cancel_left, List.drop_drop, Nat.add_assoc]
    rw [List.length_take]
    omega
  cases b with
  | object => exact hpre
  | field =>
    rw [room, List.length_take, List.length_drop] at hi
    have htake : ((obj.drop f.off).take i ++ data).length = i + data.length := by
      rw [List.length_append, List.length_take, List.length_drop]
      omega
    rw [room, room, hpre, List.take_take, Nat.min_eq_left (by omega), List.take_append,
      List.take_of_length_le (by omega), htake, ← List.drop_take]

theorem length_room_write (h : f.write b obj i data = .ok obj') :
    (f.room b obj').length = (f.room b obj).length := by
  cases b <;> simp only [room, List.length_take, List.length_drop, length_write h]

/-- Writing piece by piece. -/
theorem write_append {more : List UInt8} :
    (do let obj ← f.write b obj i data; f.write b obj (i + data.length) more) =
      f.write b obj i (data ++ more) := by
  have hpiece : ∀ obj', f.write b obj i data = .ok obj' →
      obj'.take (f.off + (i + data.length)) ++ more ++
          obj'.drop (f.off + (i + data.length) + more.length) =
        obj.take (f.off + i) ++ (data ++ more) ++
          obj.drop (f.off + i + (data.length + more.length)) := by
    intro obj' h
    rw [drop_write h (by omega), ← Nat.add_assoc f.off, Nat.add_assoc (f.off + i)]
    obtain ⟨-, hlen, rfl⟩ := write_eq_ok_iff.1 h
    have htake : (obj.take (f.off + i) ++ data).length = f.off + i + data.length := by
      rw [List.length_append, List.length_take]
      omega
    rw [← htake, List.take_left, List.append_assoc (obj.take _)]
  refine Except.ext_ok fun obj'' => ?_
  rw [Except.bind_eq_ok_iff, write_eq_ok_iff, List.length_append]
  constructor
  · rintro ⟨obj', h, h'⟩
    have hroom := length_room_write h
    have hlen := length_write h
    obtain ⟨hi, hend, rfl⟩ := write_eq_ok_iff.1 h'
    exact ⟨by omega, by omega, (hpiece obj' h).symm⟩
  · rintro ⟨hi, hend, rfl⟩
    have h := write_eq_ok_iff.2 ⟨(by omega : i + data.length ≤ (f.room b obj).length),
      (by omega : f.off + i + data.length ≤ obj.length), rfl⟩
    have hroom := length_room_write h
    have hlen := length_write h
    exact ⟨_, h, write_eq_ok_iff.2 ⟨by omega, by omega, hpiece _ h⟩⟩

theorem strcpy_append {x : List UInt8} (hx : 0 ∉ x) (m : List UInt8) :
    f.strcpy b obj (x ++ 0 :: m) = f.write b obj 0 (x ++ [0]) := by
  rw [strcpy, strText_append hx]
  rfl

/-- A string copied to a member is the string there. -/
theorem room_write_string {x : List UInt8} (h : f.write b obj 0 (x ++ [0]) = .ok obj') :
    ∃ m, f.room b obj' = x ++ 0 :: m := by
  rw [room_write h, List.take_zero, List.nil_append, List.append_assoc]
  exact ⟨_, rfl⟩

/-- The string in an array of zeros. -/
theorem strText_room_replicate {n : ℕ} (hf : 0 < f.size) (hn : f.off < n) :
    strText (f.room b (List.replicate n 0)) = .ok [] := by
  obtain ⟨k, hk⟩ : ∃ k, f.room b (List.replicate n 0) = List.replicate (k + 1) 0 := by
    cases b with
    | field =>
      refine ⟨min f.size (n - f.off) - 1, ?_⟩
      rw [room, List.drop_replicate, List.take_replicate]
      congr 1
      omega
    | object =>
      refine ⟨n - f.off - 1, ?_⟩
      rw [room, List.drop_replicate]
      congr 1
      omega
  rw [hk]
  rfl

end Field

/-- Copying to a block piece by piece. -/
theorem copyTo_append (block data more : List UInt8) (i : ℕ) :
    (do let block ← copyTo block i data; copyTo block (i + data.length) more) =
      copyTo block i (data ++ more) := by
  -- A block is a member with the whole struct within reach.
  have hwrite : ∀ block i data,
      copyTo block i data = (⟨0, 0⟩ : Field).write .object block i data := by
    intro block i data
    rw [Field.write, Field.room, List.drop_zero, Nat.zero_add, copyTo]
    split_ifs <;> rfl
  simp only [hwrite]
  exact Field.write_append

end CLang
