import CseMachine.Text.Bytes

/-!
# Character boundaries

Offsets count bytes, and a text may only be cut where one of its characters starts or where
it ends. The offsets where it may be cut are the numbers of bytes of its prefixes.
-/
namespace CseMachine.Text

variable {cs : List Char} {n : Nat}

/-- A character of the text starts at the offset, or the text ends there. -/
def IsBoundary (cs : List Char) (n : Nat) : Prop := (dropBytes? n cs).isSome

theorem dropBytes?_cons (c : Char) (n : Nat) (cs : List Char) : dropBytes? (c.utf8Size + n) (c :: cs) = dropBytes? n cs := by
  obtain ⟨k, hk⟩ := Nat.exists_eq_succ_of_ne_zero (Nat.ne_of_gt c.utf8Size_pos)
  rw [show c.utf8Size + n = k + n + 1 by omega, dropBytes?, if_pos (by omega), show k + n + 1 - c.utf8Size = n by omega]

theorem dropBytes?_append (front back : List Char) : dropBytes? (bytes front) (front ++ back) = some back := by
  induction front with
  | nil => simp [dropBytes?]
  | cons c front ih => rw [bytes_cons, List.cons_append, dropBytes?_cons, ih]

theorem isBoundary_append (front back : List Char) : IsBoundary (front ++ back) (bytes front) := by
  rw [IsBoundary, dropBytes?_append]
  rfl

theorem isBoundary_bytes (cs : List Char) : IsBoundary cs (bytes cs) := by
  simpa using isBoundary_append cs []

theorem IsBoundary.le (h : IsBoundary cs n) : n ≤ bytes cs := by
  simp only [IsBoundary] at h
  fun_induction dropBytes? n cs with
  | case1 => exact Nat.zero_le _
  | case2 => cases h
  | case3 n c cs hle ih =>
    have := ih h
    rw [bytes_cons]
    omega
  | case4 => cases h

theorem takeBytes?_cons (c : Char) (n : Nat) (cs : List Char) :
    takeBytes? (c.utf8Size + n) (c :: cs) = (takeBytes? n cs).map (c :: ·) := by
  obtain ⟨k, hk⟩ := Nat.exists_eq_succ_of_ne_zero (Nat.ne_of_gt c.utf8Size_pos)
  rw [show c.utf8Size + n = k + n + 1 by omega, takeBytes?, if_pos (by omega), show k + n + 1 - c.utf8Size = n by omega]

theorem takeBytes?_append (front back : List Char) : takeBytes? (bytes front) (front ++ back) = some front := by
  induction front with
  | nil => simp [takeBytes?]
  | cons c front ih => rw [bytes_cons, List.cons_append, takeBytes?_cons, ih, Option.map_some]

/-- What is cut out between two prefixes is what the longer one has more. -/
theorem slice?_append (front middle back : List Char) :
    slice? (front ++ middle ++ back) (bytes front) (bytes (front ++ middle)) = some middle := by
  have hle : bytes front ≤ bytes (front ++ middle) := by
    rw [bytes_append]
    omega
  rw [slice?, if_pos hle, List.append_assoc, dropBytes?_append, Option.bind_some,
    show bytes (front ++ middle) - bytes front = bytes middle by rw [bytes_append]; omega, takeBytes?_append]

/-- A text may be cut where a prefix of it ends. -/
theorem isBoundary_iff : IsBoundary cs n ↔ ∃ front back, cs = front ++ back ∧ bytes front = n := by
  constructor
  · intro h
    simp only [IsBoundary] at h
    fun_induction dropBytes? n cs with
    | case1 cs => exact ⟨[], cs, rfl, rfl⟩
    | case2 => cases h
    | case3 n c cs hle ih =>
      obtain ⟨front, back, rfl, hfront⟩ := ih h
      refine ⟨c :: front, back, rfl, ?_⟩
      rw [bytes_cons, hfront]
      omega
    | case4 => cases h
  · rintro ⟨front, back, rfl, rfl⟩
    exact isBoundary_append front back

end CseMachine.Text
