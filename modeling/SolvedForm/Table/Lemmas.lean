import SolvedForm.Table

/-!
# Tables as ascending lists of rows

What each operation of a sorted table does to its list of rows. `get?_eq_find?` says that looking a
key up by bisection finds what a scan of all rows finds; `toList_insert` and `toList_erase` give the
rows after a change.
-/

namespace SolvedForm.Table

variable {α β : Type} {t : Table α} {v w : Var} {a : α}

theorem Sorted.lt_of_lt (ht : t.Sorted) {i j : Nat} (hij : i < j) (hj : j < t.entries.size) :
    t.entries[i].1 < t.entries[j].1 := by
  have := List.pairwise_iff_getElem.mp ht i j
  simp only [toList, Array.length_toList, Array.getElem_toList] at this
  exact this (by omega) hj hij

theorem lowerBound_separates (ht : t.Sorted) (v : Var) (lo hi : Nat) (hle : lo ≤ hi)
    (hhi : hi ≤ t.entries.size)
    (below : ∀ j (h : j < t.entries.size), j < lo → t.entries[j].1 < v)
    (above : ∀ j (h : j < t.entries.size), hi ≤ j → v ≤ t.entries[j].1) :
    (∀ j (h : j < t.entries.size), j < lowerBound t.entries v lo hi → t.entries[j].1 < v) ∧
      ∀ j (h : j < t.entries.size), lowerBound t.entries v lo hi ≤ j → v ≤ t.entries[j].1 := by
  fun_induction lowerBound t.entries v lo hi with
  | case1 lo hi hlt mid key b hmid hkey ih =>
    refine ih (by omega) hhi (fun j h hj => ?_) above
    rcases Nat.lt_or_eq_of_le (show j ≤ mid by omega) with hjm | rfl
    · have := ht.lt_of_lt hjm (by omega)
      grind
    · grind
  | case2 lo hi hlt mid key b hmid hkey ih =>
    refine ih (by omega) (by omega) below fun j h hj => ?_
    rcases Nat.lt_or_eq_of_le hj with hjm | rfl
    · have := ht.lt_of_lt hjm h
      grind
    · grind
  | case3 lo hi hlt mid hmid => grind
  | case4 lo hi hlt =>
    obtain rfl : lo = hi := by omega
    exact ⟨below, above⟩

theorem position_separates (ht : t.Sorted) (v : Var) :
    (∀ j (h : j < t.entries.size), j < t.position v → t.entries[j].1 < v) ∧
      ∀ j (h : j < t.entries.size), t.position v ≤ j → v ≤ t.entries[j].1 :=
  lowerBound_separates ht v 0 t.entries.size (Nat.zero_le _) (Nat.le_refl _)
    (fun _ _ hj => absurd hj (Nat.not_lt_zero _)) (fun _ _ _ => by omega)

theorem lt_of_mem_take_position (ht : t.Sorted) {row : Var × α}
    (h : row ∈ t.toList.take (t.position v)) : row.1 < v := by
  obtain ⟨j, hj, rfl⟩ := List.mem_take_iff_getElem.mp h
  rw [toList, Array.length_toList] at hj
  exact (position_separates ht v).1 j (by omega) (by omega)

theorem le_of_mem_drop_position (ht : t.Sorted) {row : Var × α}
    (h : row ∈ t.toList.drop (t.position v)) : v ≤ row.1 := by
  obtain ⟨j, hj, rfl⟩ := List.mem_drop_iff_getElem.mp h
  rw [toList, Array.length_toList] at hj
  exact (position_separates ht v).2 _ (by omega) (Nat.le_add_right _ _)

theorem take_position (ht : t.Sorted) (v : Var) :
    t.toList.take (t.position v) = t.toList.filter fun row => row.1 < v := by
  conv => rhs; rw [← List.take_append_drop (t.position v) t.toList, List.filter_append]
  rw [List.filter_eq_self.mpr, List.filter_eq_nil_iff.mpr, List.append_nil]
  · intro row h
    have := le_of_mem_drop_position ht h
    simp; omega
  · intro row h
    simpa using lt_of_mem_take_position ht h

theorem drop_position (ht : t.Sorted) (v : Var) :
    t.toList.drop (t.position v) = t.toList.filter fun row => v ≤ row.1 := by
  conv => rhs; rw [← List.take_append_drop (t.position v) t.toList, List.filter_append]
  rw [List.filter_eq_nil_iff.mpr, List.filter_eq_self.mpr, List.nil_append]
  · intro row h
    simpa using le_of_mem_drop_position ht h
  · intro row h
    have := lt_of_mem_take_position ht h
    simp; omega

/-- Bisection finds the row that a scan of all rows finds. -/
theorem get?_eq_find? (ht : t.Sorted) (v : Var) :
    t.get? v = (t.toList.find? fun row => row.1 = v).map Prod.snd := by
  have hnone : (t.toList.take (t.position v)).find? (fun row => row.1 = v) = none := by
    rw [List.find?_eq_none]
    intro row h
    simpa using Nat.ne_of_lt (lt_of_mem_take_position ht h)
  rw [← List.take_append_drop (t.position v) t.toList, List.find?_append, hnone, Option.none_or]
  unfold get?
  rw [← Array.getElem?_toList]
  by_cases hlt : t.position v < t.entries.toList.length
  · have hs : (t.toList.drop (t.position v)).Pairwise fun a b => a.1 < b.1 := ht.drop
    have hhead := @le_of_mem_drop_position _ _ v ht t.entries.toList[t.position v]
    rw [toList, List.drop_eq_getElem_cons hlt] at hs hhead ⊢
    rw [List.getElem?_eq_getElem hlt, List.find?_cons]
    by_cases hv : t.entries.toList[t.position v].1 = v
    · simp only [hv, decide_true, if_true, Option.map_some]
    · have hne :
          (t.entries.toList.drop (t.position v + 1)).find? (fun row => row.1 = v) = none := by
        rw [List.find?_eq_none]
        intro row h
        have h1 := (List.pairwise_cons.mp hs).1 row h
        have h2 := hhead (List.mem_cons_self ..)
        simpa using Nat.ne_of_gt (Nat.lt_of_le_of_lt h2 h1)
      simp only [hv, hne, decide_false, if_false, Option.map_none]
  · rw [toList, List.getElem?_eq_none (by omega), List.drop_eq_nil_of_le (by omega)]
    rfl

theorem get?_eq_lookup (ht : t.Sorted) (v : Var) : t.get? v = t.toList.lookup v := by
  rw [get?_eq_find? ht]
  induction t.toList with
  | nil => rfl
  | cons row rows ih =>
    rw [List.find?_cons, List.lookup_cons]
    by_cases hv : row.1 = v
    · simp [hv]
    · simpa [hv, beq_false_of_ne (Ne.symm hv)] using ih

theorem key_unique (ht : t.Sorted) {x y : Var × α} (hx : x ∈ t.toList) (hy : y ∈ t.toList)
    (h : x.1 = y.1) : x = y := by
  rcases List.pairwise_iff_getElem.mp ht with hs
  obtain ⟨i, hi, rfl⟩ := List.getElem_of_mem hx
  obtain ⟨j, hj, rfl⟩ := List.getElem_of_mem hy
  rcases Nat.lt_trichotomy i j with hij | rfl | hij
  · exact absurd h (Nat.ne_of_lt (hs i j hi hj hij))
  · rfl
  · exact absurd h (Nat.ne_of_gt (hs j i hj hi hij))

theorem eq_of_mem_iff {u : Table α} (ht : t.Sorted) (hu : u.Sorted)
    (h : ∀ row, row ∈ t.toList ↔ row ∈ u.toList) : t = u := by
  have hnodup {t : Table α} (ht : t.Sorted) : t.toList.Nodup :=
    ht.imp fun hlt heq => Nat.ne_of_lt hlt (congrArg Prod.fst heq)
  have hperm : t.toList.Perm u.toList :=
    (List.perm_ext_iff_of_nodup (hnodup ht) (hnodup hu)).mpr fun row => h row
  have heq : t.toList = u.toList :=
    hperm.eq_of_pairwise (fun _ _ _ _ hlt hgt => absurd hlt (Nat.lt_asymm hgt)) ht hu
  cases t
  cases u
  exact congrArg Table.mk (Array.ext' heq)

theorem get?_eq_some_iff (ht : t.Sorted) : t.get? v = some a ↔ (v, a) ∈ t.toList := by
  rw [get?_eq_find? ht, Option.map_eq_some_iff]
  constructor
  · rintro ⟨row, hrow, rfl⟩
    have hmem := List.mem_of_find?_eq_some hrow
    have hv := List.find?_some hrow
    simp only [decide_eq_true_eq] at hv
    exact hv ▸ hmem
  · intro h
    cases hfind : t.toList.find? fun row => row.1 = v with
    | none => simpa using List.find?_eq_none.mp hfind _ h
    | some row =>
      have hv := List.find?_some hfind
      simp only [decide_eq_true_eq] at hv
      exact ⟨row, rfl, congrArg Prod.snd (key_unique ht (List.mem_of_find?_eq_some hfind) h hv)⟩

theorem contains_iff (ht : t.Sorted) : t.contains v ↔ v ∈ t.keys := by
  rw [contains, Option.isSome_iff_exists, keys, List.mem_map]
  constructor
  · rintro ⟨a, h⟩
    exact ⟨_, (get?_eq_some_iff ht).mp h, rfl⟩
  · rintro ⟨row, h, rfl⟩
    exact ⟨row.2, (get?_eq_some_iff ht).mpr h⟩

/-! ### Inserting and erasing -/

theorem drop_position_filter (ht : t.Sorted) (v : Var) :
    (t.toList.drop (t.position v)).filter (fun row => v < row.1) =
      t.toList.filter fun row => v < row.1 := by
  rw [drop_position ht, List.filter_filter]
  congr 1
  funext row
  simpa using fun h => Nat.le_of_lt h

theorem drop_position_eq_cons (t : Table α) (h : t.position v < t.entries.size) :
    t.toList.drop (t.position v) =
      t.entries[t.position v] :: t.toList.drop (t.position v + 1) := by
  rw [toList, List.drop_eq_getElem_cons (by simpa using h), Array.getElem_toList]

theorem lt_of_mem_drop_succ_position (ht : t.Sorted) (h : t.position v < t.entries.size)
    {row : Var × α} (hrow : row ∈ t.toList.drop (t.position v + 1)) :
    t.entries[t.position v].1 < row.1 := by
  have hs : (t.toList.drop (t.position v)).Pairwise fun a b => a.1 < b.1 := ht.drop
  rw [drop_position_eq_cons t h] at hs
  exact (List.pairwise_cons.mp hs).1 row hrow

theorem drop_succ_position (ht : t.Sorted) (h : t.position v < t.entries.size)
    (hv : t.entries[t.position v].1 = v) :
    t.toList.drop (t.position v + 1) = t.toList.filter fun row => v < row.1 := by
  rw [← drop_position_filter ht, drop_position_eq_cons t h, List.filter_cons_of_neg (by simp [hv]),
    List.filter_eq_self.mpr]
  intro row hrow
  simpa [hv] using lt_of_mem_drop_succ_position ht h hrow

theorem drop_position_of_ne (ht : t.Sorted) (h : t.position v < t.entries.size)
    (hv : t.entries[t.position v].1 ≠ v) :
    t.toList.drop (t.position v) = t.toList.filter fun row => v < row.1 := by
  have hlt : v < t.entries[t.position v].1 :=
    Nat.lt_of_le_of_ne ((position_separates ht v).2 _ h (Nat.le_refl _)) (Ne.symm hv)
  rw [← drop_position_filter ht, List.filter_eq_self.mpr]
  intro row hrow
  rw [drop_position_eq_cons t h, List.mem_cons] at hrow
  rcases hrow with rfl | hrow
  · simpa using hlt
  · simpa using Nat.lt_trans hlt (lt_of_mem_drop_succ_position ht h hrow)

theorem insertIdx_eq_take_append_drop (l : List α) (i : Nat) (a : α) (h : i ≤ l.length) :
    l.insertIdx i a = l.take i ++ a :: l.drop i := by
  induction l generalizing i with
  | nil => obtain rfl : i = 0 := by simpa using h
           rfl
  | cons b l ih =>
    cases i with
    | zero => rfl
    | succ i =>
      rw [List.insertIdx_succ_cons, ih i (by simpa using h)]
      rfl

/-- Inserting splits the rows at the key and puts its row between them. -/
theorem toList_insert (ht : t.Sorted) (v : Var) (a : α) :
    (t.insert v a).toList =
      (t.toList.filter fun row => row.1 < v) ++ (v, a) :: t.toList.filter fun row => v < row.1 := by
  unfold insert
  dsimp only
  split
  · rename_i h
    split
    · rename_i hv
      rw [← take_position ht, ← drop_succ_position ht h hv, toList, Array.toList_set,
        List.set_eq_take_append_cons_drop, if_pos (by simpa using h)]
      rfl
    · rename_i hv
      rw [← take_position ht, ← drop_position_of_ne ht h hv, toList, Array.toList_insertIdx,
        insertIdx_eq_take_append_drop _ _ _ (by simpa using Nat.le_of_lt h)]
      rfl
  · rename_i h
    have hsize : t.toList.length ≤ t.position v := by simpa [toList] using h
    rw [← take_position ht, List.take_of_length_le hsize, ← drop_position_filter ht,
      List.drop_eq_nil_of_le hsize, toList, Array.toList_push]
    rfl

theorem filter_ne_eq (ht : t.Sorted) (v : Var) :
    (t.toList.filter fun row => row.1 ≠ v) =
      (t.toList.filter fun row => row.1 < v) ++ t.toList.filter fun row => v < row.1 := by
  conv => lhs; rw [← List.take_append_drop (t.position v) t.toList, List.filter_append]
  rw [← take_position ht, ← drop_position_filter ht]
  congr 1
  · rw [List.filter_eq_self]
    intro row h
    simpa using Nat.ne_of_lt (lt_of_mem_take_position ht h)
  · apply List.filter_congr
    intro row h
    have := le_of_mem_drop_position ht h
    grind

theorem toList_erase (ht : t.Sorted) (v : Var) :
    (t.erase v).toList = t.toList.filter fun row => row.1 ≠ v := by
  rw [filter_ne_eq ht, ← take_position ht]
  unfold erase
  dsimp only
  split
  · rename_i h
    split
    · rename_i hv
      rw [← drop_succ_position ht h hv, toList, Array.toList_eraseIdx,
        List.eraseIdx_eq_take_drop_succ]
      rfl
    · rename_i hv
      rw [← drop_position_of_ne ht h hv, List.take_append_drop]
  · rename_i h
    have hsize : t.toList.length ≤ t.position v := by simpa [toList] using h
    rw [List.take_of_length_le hsize, ← drop_position_filter ht, List.drop_eq_nil_of_le hsize,
      List.filter_nil, List.append_nil]

theorem Sorted.insert (ht : t.Sorted) (v : Var) (a : α) : (t.insert v a).Sorted := by
  unfold Sorted
  rw [toList_insert ht, List.pairwise_append]
  refine ⟨ht.filter _, List.pairwise_cons.mpr ⟨?_, ht.filter _⟩, ?_⟩
  · intro row h
    simpa using (List.mem_filter.mp h).2
  · intro x hx y hy
    have hx : x.1 < v := by simpa using (List.mem_filter.mp hx).2
    rcases List.mem_cons.mp hy with rfl | hy
    · exact hx
    · exact Nat.lt_trans hx (by simpa using (List.mem_filter.mp hy).2)

theorem Sorted.erase (ht : t.Sorted) (v : Var) : (t.erase v).Sorted := by
  unfold Sorted
  rw [toList_erase ht]
  exact ht.filter _

theorem mem_toList_insert (ht : t.Sorted) {row : Var × α} :
    row ∈ (t.insert v a).toList ↔ row = (v, a) ∨ row ∈ t.toList ∧ row.1 ≠ v := by
  rw [toList_insert ht]
  simp only [List.mem_append, List.mem_filter, List.mem_cons, decide_eq_true_eq]
  have := Nat.lt_trichotomy row.1 v
  have hlt := @Nat.ne_of_lt row.1 v
  have hgt := @Nat.ne_of_gt row.1 v
  grind

theorem mem_toList_erase (ht : t.Sorted) {row : Var × α} :
    row ∈ (t.erase v).toList ↔ row ∈ t.toList ∧ row.1 ≠ v := by
  rw [toList_erase ht, List.mem_filter]
  simp

theorem get?_insert (ht : t.Sorted) (v w : Var) (a : α) :
    (t.insert v a).get? w = if w = v then some a else t.get? w := by
  apply Option.ext
  intro b
  rw [get?_eq_some_iff (ht.insert v a), mem_toList_insert ht]
  split
  · rename_i h
    subst h
    simp [eq_comm]
  · rename_i h
    simp [h, get?_eq_some_iff ht]

theorem get?_erase (ht : t.Sorted) (v w : Var) :
    (t.erase v).get? w = if w = v then none else t.get? w := by
  apply Option.ext
  intro b
  rw [get?_eq_some_iff (ht.erase v), mem_toList_erase ht]
  split
  · rename_i h
    simp [h]
  · rename_i h
    simp [h, get?_eq_some_iff ht]

theorem toList_ofRows (rows : List (Var × α)) : (ofRows rows).toList = rows :=
  rfl

theorem toList_map (f : α → β) (t : Table α) :
    (t.map f).toList = t.toList.map fun row => (row.1, f row.2) := by
  simp [map, toList]

theorem toList_filter (p : α → Bool) (t : Table α) :
    (t.filter p).toList = t.toList.filter fun row => p row.2 := by
  simp [filter, toList]

theorem Sorted.map (ht : t.Sorted) (f : α → β) : (t.map f).Sorted := by
  unfold Sorted
  rw [toList_map, List.pairwise_map]
  exact ht

theorem Sorted.filter (ht : t.Sorted) (p : α → Bool) : (t.filter p).Sorted := by
  unfold Sorted
  rw [toList_filter]
  exact List.Pairwise.filter _ ht

end SolvedForm.Table
