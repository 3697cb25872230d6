import CommCentral.MsgView.ThreadRows

/-!
# The columns of rows

Arrays of equal lengths are the columns of a list of rows (`columns`).  On the
columns of rows, every edit of the arrays is the edit of the rows.
-/

namespace CommCentral.MsgView

open List

/-! ## Columns -/

/-- A row of a view, with its entries in the three arrays. -/
structure Row where
  key : ℕ
  flags : RowFlags
  level : ℕ

def columns (rows : List Row) : ViewArrays :=
  ⟨rows.map Row.key, rows.map Row.flags, rows.map Row.level⟩

section Columns

variable {pre mid post : List Row} {row : Row}

theorem getSize_columns (rows : List Row) : (columns rows).getSize = rows.length :=
  length_map ..

section

variable (rows : List Row) (i : ℕ)

theorem columns_keys_getElem? : (columns rows).m_keys[i]? = rows[i]?.map Row.key := getElem?_map ..

theorem columns_flags_getElem? :
    (columns rows).m_flags[i]? = rows[i]?.map Row.flags := getElem?_map ..

theorem columns_levels_getElem? :
    (columns rows).m_levels[i]? = rows[i]?.map Row.level := getElem?_map ..

end

theorem getElem?_middle (pre : List Row) (row : Row) (post : List Row) :
    (pre ++ row :: post)[pre.length]? = some row := by
  rw [getElem?_append_right (Nat.le_refl _), Nat.sub_self]
  rfl

theorem insertElementsAt_columns (pre mid post : List Row) :
    (columns (pre ++ post)).insertElementsAt pre.length (columns mid) =
      columns (pre ++ mid ++ post) := by
  simp only [ViewArrays.insertElementsAt, columns, map_append]
  congr 1
  all_goals
    rw [take_left' (length_map ..), drop_left' (length_map ..)]

theorem insertMsgHdrAt_columns (pre post : List Row) (msgKey : ℕ) (flags : RowFlags) (level : ℕ) :
    (columns (pre ++ post)).insertMsgHdrAt pre.length msgKey flags level =
      columns (pre ++ ⟨msgKey, flags, level % 256⟩ :: post) := by
  have hle : ¬ pre.length > (columns (pre ++ post)).getSize := by
    rw [getSize_columns, length_append]
    omega
  rw [ViewArrays.insertMsgHdrAt, if_neg hle]
  have h := insertElementsAt_columns pre [⟨msgKey, flags, level % 256⟩] post
  rw [append_assoc] at h
  exact h

theorem set_middle {β : Type*} (f : Row → β) (pre : List Row) (row row' : Row) (post : List Row) :
    ((pre ++ row :: post).map f).set pre.length (f row') = (pre ++ row' :: post).map f := by
  rw [← map_set, set_append_right _ _ (Nat.le_refl _), Nat.sub_self]
  rfl

theorem setFlags_columns (pre : List Row) (row : Row) (post : List Row) (flags : RowFlags) :
    (columns (pre ++ row :: post)).setFlags pre.length flags =
      columns (pre ++ ⟨row.key, flags, row.level⟩ :: post) := by
  rw [ViewArrays.setFlags]
  have hflags := set_middle Row.flags pre row ⟨row.key, flags, row.level⟩ post
  simp only [columns, map_append, map_cons] at hflags ⊢
  rw [hflags]

theorem removeRows_columns (pre mid post : List Row) :
    (columns (pre ++ mid ++ post)).removeRows pre.length mid.length = columns (pre ++ post) := by
  have htake : ∀ {β : Type} (f : Row → β),
      ((pre ++ mid ++ post).map f).take pre.length ++
        ((pre ++ mid ++ post).map f).drop (pre.length + mid.length) = (pre ++ post).map f := by
    intro β f
    rw [← map_take, ← map_drop, append_assoc, take_left, ← append_assoc,
      drop_left' (length_append ..), ← map_append]
  simp only [ViewArrays.removeRows, columns, htake]

end Columns

end CommCentral.MsgView
