namespace IncrementalLR.Text

-- The number of bytes of a text in UTF-8.
def byteLength : List Char → Nat
  | [] => 0
  | c :: rest => c.utf8Size + byteLength rest

-- The text from a byte offset on, if the offset lies between two characters.
def dropBytes? : Nat → List Char → Option (List Char)
  | 0, text => some text
  | _ + 1, [] => none
  | offset, c :: rest => if c.utf8Size ≤ offset then dropBytes? (offset - c.utf8Size) rest else none

-- The text before a byte offset, if the offset lies between two characters.
def takeBytes? : Nat → List Char → Option (List Char)
  | 0, _ => some []
  | _ + 1, [] => none
  | offset, c :: rest =>
      if c.utf8Size ≤ offset then (takeBytes? (offset - c.utf8Size) rest).map (c :: ·) else none

variable {c : Char} {text : List Char}

@[simp] theorem byteLength_append (front back : List Char) :
    byteLength (front ++ back) = byteLength front + byteLength back := by
  induction front with
  | nil => simp [byteLength]
  | cons c rest ih =>
      simp only [List.cons_append, byteLength, ih]
      omega

@[simp] theorem byteLength_eq_zero_iff : byteLength text = 0 ↔ text = [] := by
  cases text with
  | nil => simp [byteLength]
  | cons c rest =>
      have := c.utf8Size_pos
      simp only [byteLength, List.cons_ne_nil, iff_false]
      omega

-- What either function does with the first character of a text.
theorem dropBytes?_cons {offset : Nat} (hle : c.utf8Size ≤ offset) :
    dropBytes? offset (c :: text) = dropBytes? (offset - c.utf8Size) text := by
  cases offset with
  | zero => exact absurd c.utf8Size_pos (by omega)
  | succ offset => exact if_pos hle

theorem takeBytes?_cons {offset : Nat} (hle : c.utf8Size ≤ offset) :
    takeBytes? offset (c :: text) = (takeBytes? (offset - c.utf8Size) text).map (c :: ·) := by
  cases offset with
  | zero => exact absurd c.utf8Size_pos (by omega)
  | succ offset => exact if_pos hle

-- The offset that follows a prefix cuts the text there.
theorem dropBytes?_append (front rest : List Char) :
    dropBytes? (byteLength front) (front ++ rest) = some rest := by
  induction front with
  | nil => cases rest <;> rfl
  | cons c front ih =>
      rw [byteLength, List.cons_append, dropBytes?_cons (Nat.le_add_right ..), Nat.add_sub_cancel_left, ih]

theorem takeBytes?_append (front rest : List Char) :
    takeBytes? (byteLength front) (front ++ rest) = some front := by
  induction front with
  | nil => cases rest <;> rfl
  | cons c front ih =>
      rw [byteLength, List.cons_append, takeBytes?_cons (Nat.le_add_right ..), Nat.add_sub_cancel_left, ih,
        Option.map_some]

end IncrementalLR.Text
