import LogTail.Tracker.Poll

namespace LogTail.Tracker

variable {α : Type} {n : Nat}

theorem chunks_of_le {as : List α} (h : as.length ≤ n) : chunks n as = [as] := by
  cases as with
  | nil => rfl
  | cons a as => rw [chunks, List.length_cons, chunksFrom, if_pos h]

theorem chunksFrom_fuel (hn : 0 < n) {fuel fuel' : Nat} {as : List α} (h : as.length ≤ fuel)
    (h' : as.length ≤ fuel') : chunksFrom n fuel as = chunksFrom n fuel' as := by
  induction fuel generalizing as fuel' with
  | zero =>
      obtain rfl := List.length_eq_zero_iff.mp (Nat.le_zero.mp h)
      cases fuel' <;> simp [chunksFrom]
  | succ fuel ih =>
      cases fuel' with
      | zero =>
          obtain rfl := List.length_eq_zero_iff.mp (Nat.le_zero.mp h')
          simp [chunksFrom]
      | succ fuel' =>
          simp only [chunksFrom]
          split
          · rfl
          · rw [ih] <;> simp only [List.length_drop] <;> omega

theorem chunks_of_lt (hn : 0 < n) {as : List α} (h : n < as.length) :
    chunks n as = as.take n :: chunks n (as.drop n) := by
  obtain ⟨fuel, hfuel⟩ : ∃ fuel, as.length = fuel + 1 := ⟨as.length - 1, by omega⟩
  have hdrop : (as.drop n).length ≤ fuel := by
    rw [List.length_drop]
    omega
  rw [chunks, hfuel, chunksFrom, if_neg (Nat.not_le.mpr h),
    chunksFrom_fuel hn hdrop (Nat.le_refl _), ← chunks]

theorem chunks_ne_nil (n : Nat) (as : List α) : chunks n as ≠ [] := by
  unfold chunks
  cases as.length with
  | zero => simp [chunksFrom]
  | succ fuel =>
      rw [chunksFrom]
      split <;> simp

@[elab_as_elim]
theorem chunks_induction (hn : 0 < n) {P : List α → Prop} (last : ∀ as, as.length ≤ n → P as)
    (more : ∀ as, n < as.length → P (as.drop n) → P as) (as : List α) : P as := by
  induction hlen : as.length using Nat.strongRecOn generalizing as with
  | _ m ih =>
      by_cases hfew : as.length ≤ n
      · exact last as hfew
      · have hmore : n < as.length := Nat.not_le.mp hfew
        refine more as hmore (ih (as.drop n).length ?_ _ rfl)
        rw [List.length_drop]
        omega

theorem chunks_flatten (hn : 0 < n) (as : List α) : (chunks n as).flatten = as := by
  induction as using chunks_induction hn with
  | last as hfew => rw [chunks_of_le hfew, List.flatten_singleton]
  | more as hmore ih =>
      rw [chunks_of_lt hn hmore, List.flatten_cons, ih, List.take_append_drop]

theorem length_of_mem_chunks (hn : 0 < n) {as batch : List α} (h : batch ∈ chunks n as) :
    batch.length ≤ n := by
  induction as using chunks_induction hn with
  | last as hfew =>
      rw [chunks_of_le hfew] at h
      obtain rfl := List.mem_singleton.mp h
      exact hfew
  | more as hmore ih =>
      rw [chunks_of_lt hn hmore] at h
      rcases List.mem_cons.mp h with rfl | h
      · exact List.length_take_le _ _
      · exact ih h

theorem chunks_take_flatten (hn : 0 < n) (count : Nat) (as : List α) :
    ((chunks n as).take count).flatten = as.take (count * n) := by
  induction as using chunks_induction hn generalizing count with
  | last as hfew =>
      cases count with
      | zero => simp
      | succ count =>
          have hall : as.length ≤ (count + 1) * n :=
            Nat.le_trans hfew (Nat.le_mul_of_pos_left n (Nat.succ_pos count))
          rw [chunks_of_le hfew, List.take_succ_cons, List.take_nil, List.flatten_singleton,
            List.take_of_length_le hall]
  | more as hmore ih =>
      cases count with
      | zero => simp
      | succ count =>
          rw [chunks_of_lt hn hmore, List.take_succ_cons, List.flatten_cons, ih, ← List.take_add,
            Nat.add_comm n, ← Nat.succ_mul]

theorem chunks_drop_flatten (hn : 0 < n) (count : Nat) (as : List α) :
    ((chunks n as).drop count).flatten = as.drop (count * n) := by
  have h := congrArg List.flatten (List.take_append_drop count (chunks n as))
  rw [List.flatten_append, chunks_flatten hn, chunks_take_flatten hn] at h
  exact List.append_cancel_left (h.trans (List.take_append_drop (count * n) as).symm)

end LogTail.Tracker
