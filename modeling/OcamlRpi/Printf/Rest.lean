import OcamlRpi.Printf.Loop

namespace OcamlRpi.Printf

open List

variable {fmt : List UInt8} {i j : ℕ}

theorem parseFlags_add (cs : List UInt8) (flags : Flags) (j i : ℕ) :
    parseFlags cs flags (j + i) = ((parseFlags cs flags i).1, j + (parseFlags cs flags i).2) := by
  induction cs generalizing flags i with
  | nil => rfl
  | cons c cs ih =>
    unfold parseFlags
    split
    iterate 5
      next => exact ih _ (i + 1)
    next => rfl

theorem atoi_add (cs : List UInt8) (x : ℤ) (j i : ℕ) :
    atoi cs x (j + i) = ((atoi cs x i).1, j + (atoi cs x i).2) := by
  induction cs generalizing x i with
  | nil => rfl
  | cons c cs ih =>
    unfold atoi
    split_ifs
    · exact ih _ (i + 1)
    · rfl

theorem parseWidth_drop (fmt : List UInt8) (j i : ℕ) (args : List Arg) :
    parseWidth fmt (j + i) args =
      (parseWidth (fmt.drop j) i args).map fun q ↦ (q.1, j + q.2.1, q.2.2) := by
  unfold parseWidth
  rw [byte_drop, drop_drop, atoi_add]
  split_ifs
  · rw [Option.map_map]
    rfl
  · rfl
  · rfl

theorem parsePrecision_drop (fmt : List UInt8) (j i : ℕ) (args : List Arg) :
    parsePrecision fmt (j + i) args =
      (parsePrecision (fmt.drop j) i args).map fun q ↦ (q.1, j + q.2.1, q.2.2) := by
  unfold parsePrecision
  rw [byte_drop, byte_drop, drop_drop, Nat.add_assoc, atoi_add]
  split_ifs
  · rw [Option.map_map]
    rfl
  · rfl
  · rfl

theorem parseLength_drop (fmt : List UInt8) (j i : ℕ) :
    parseLength fmt (j + i) = ((parseLength (fmt.drop j) i).1, j + (parseLength (fmt.drop j) i).2) := by
  unfold parseLength
  rw [byte_drop, byte_drop, Nat.add_assoc]
  split
  · split_ifs <;> rfl
  · split_ifs <;> rfl
  · rfl
  · rfl
  · rfl

theorem placeholder_drop (fmt : List UInt8) (j i : ℕ) (args : List Arg) :
    placeholder fmt (j + i) args =
      (placeholder (fmt.drop j) i args).map fun q ↦ (q.1, j + q.2.1, q.2.2) := by
  unfold placeholder
  rw [drop_drop, parseFlags_add]
  dsimp only
  rw [parseWidth_drop]
  cases parseWidth (fmt.drop j) (parseFlags (fmt.drop (j + i)) .empty i).2 args with
  | none => rfl
  | some q =>
    obtain ⟨width, k, args⟩ := q
    simp only [Option.map_some, Option.bind_eq_bind, Option.bind_some, parsePrecision_drop]
    cases parsePrecision (fmt.drop j) k args with
    | none => rfl
    | some q =>
      obtain ⟨precision, m, args⟩ := q
      simp only [Option.map_some, Option.bind_some, parseLength_drop, ← byte_drop]
      cases convert _ width precision _ args _ <;> rfl

/-- With a `%` behind the offset `j`, the rewinding does not get in front of it. -/
theorem rewind_drop (h : ∃ m ≤ i, byte (fmt.drop j) m = '%'.toUInt8) :
    rewind fmt (j + i) = j + rewind (fmt.drop j) i := by
  induction i with
  | zero =>
    obtain ⟨m, hm, hb⟩ := h
    obtain rfl : m = 0 := Nat.le_zero.mp hm
    rw [byte_drop] at hb
    cases j with
    | zero => rfl
    | succ j => exact if_pos hb
  | succ i ih =>
    have hb := byte_drop fmt j (i + 1)
    rw [← Nat.add_assoc] at hb ⊢
    rw [rewind, rewind, hb]
    split_ifs with hc
    · rfl
    · refine ih ?_
      obtain ⟨m, hm, hm'⟩ := h
      refine ⟨m, ?_, hm'⟩
      rcases Nat.le_succ_iff.mp hm with h | rfl
      · exact h
      · exact absurd (hb ▸ hm') hc

theorem perform_drop (h : ∃ m ≤ i, byte (fmt.drop j) m = '%'.toUInt8) (n : ℕ) (args : List Arg) (o : Out)
    (action : Action) :
    perform n fmt (j + i) args o action =
      (perform n (fmt.drop j) i args o action).map fun q ↦ (j + q.1, q.2) := by
  cases action with
  | number num hex width precision flags =>
    simp only [perform, Option.map_map]
    rfl
  | char =>
    simp only [perform]
    split
    · split <;> rfl
    · rfl
  | string s precision =>
    simp only [perform]
    split
    · simp only [Option.map_map]
      rfl
    · rfl
  | percent => rfl
  | unknown =>
    simp only [perform, rewind_drop h, byte_drop]
    split_ifs <;> rfl

theorem iteration_drop (n : ℕ) (fmt : List UInt8) (j i : ℕ) (args : List Arg) (o : Out) :
    iteration n fmt (j + i, args, o) =
      (iteration n (fmt.drop j) (i, args, o)).map fun q ↦ (j + q.1, q.2) := by
  unfold iteration
  dsimp only
  rw [← byte_drop]
  split_ifs with hc
  · rfl
  · rw [Nat.add_assoc, placeholder_drop]
    cases hp : placeholder (fmt.drop j) (i + 1) args with
    | none => rfl
    | some q =>
      obtain ⟨action, k, args⟩ := q
      obtain ⟨rfl, -, -⟩ := placeholder_form hp
      have hle : i ≤ typeAt (fmt.drop j) (i + 1) + 1 := by
        have hx := (typeAt_noPercent (fmt.drop j) (i + 1)).1
        omega
      exact perform_drop ⟨i, hle, not_not.mp hc⟩ n args o action

/-- The loop processes the rest of a format as a format of its own. -/
theorem format_drop (n : ℕ) (fmt : List UInt8) (j i : ℕ) (args : List Arg) (o : Out) :
    format n fmt (j + i) args o = format n (fmt.drop j) i args o := by
  induction n generalizing i args o with
  | zero => rfl
  | succ n ih =>
    have hl := format_succ n fmt (j + i, args, o)
    have hr := format_succ n (fmt.drop j) (i, args, o)
    dsimp only at hl hr
    rw [hl, hr, byte_drop, iteration_drop]
    split_ifs
    · rfl
    · cases iteration n (fmt.drop j) (i, args, o) with
      | none => rfl
      | some q => exact ih q.1 q.2.1 q.2.2

end OcamlRpi.Printf
