import OcamlRpi.Printf.Rest

namespace OcamlRpi.Printf

open Function List Relation

/-- The bytes from `i` up to `j`. -/
def slice (fmt : List UInt8) (i j : ℕ) : List UInt8 := (range' i (j - i)).map (byte fmt)

/-- The loop copies the bytes from `i` up to `j` to the output, and then prints
what it prints for the rest of the format as a format of its own. -/
def Copies (fmt : List UInt8) (i j : ℕ) (args rest : List Arg) (o : Out) : Prop :=
  ReflTransGen (Passes fmt) (i, args, o) (j, rest, o.adds (slice fmt i j)) ∧
    ∃ k N, ∀ n, N ≤ n →
      format (n + k) fmt i args o = format n (fmt.drop j) 0 rest (o.adds (slice fmt i j))

variable {fmt : List UInt8} {i j n : ℕ} {args rest : List Arg} {o : Out} {p q r : Point}
  {action : Action}

theorem le_rewind (hi : byte fmt i = '%'.toUInt8) (hij : i ≤ j) : i ≤ rewind fmt j := by
  induction j, hij using Nat.le_induction with
  | base =>
    cases i with
    | zero => exact Nat.zero_le _
    | succ i => rw [rewind, if_pos hi]
  | succ j hij ih =>
    rw [rewind]
    split_ifs
    · omega
    · exact ih

theorem perform_le (hi : byte fmt i = '%'.toUInt8) (hij : i ≤ j)
    (h : perform n fmt j args o action = some q) : i ≤ q.1 := by
  cases action with
  | number num hex width precision flags =>
    obtain ⟨o', -, rfl⟩ := Option.map_eq_some_iff.mp h
    exact hij
  | char =>
    simp only [perform] at h
    split at h
    · split at h <;> cases h
      exact hij
    · cases h
      exact hij
  | string s precision =>
    simp only [perform] at h
    split at h
    · obtain ⟨o', -, rfl⟩ := Option.map_eq_some_iff.mp h
      exact hij
    · cases h
      exact hij
  | percent =>
    cases h
    exact hij
  | unknown =>
    cases h
    have hle := le_rewind hi hij
    dsimp only
    split_ifs <;> omega

theorem Passes.le (h : Passes fmt p q) : p.1 ≤ q.1 := by
  obtain ⟨-, N, hN⟩ := h
  have hit := hN N le_rfl
  unfold iteration at hit
  split_ifs at hit with hc
  · cases hit
    exact Nat.le_succ _
  · obtain ⟨⟨action, j, args'⟩, hp, hq⟩ := Option.bind_eq_some_iff.mp hit
    obtain ⟨rfl, -, -⟩ := placeholder_form hp
    have hle : p.1 ≤ typeAt fmt (p.1 + 1) + 1 := by
      have hx := (typeAt_noPercent fmt (p.1 + 1)).1
      omega
    exact perform_le (not_not.mp hc) hle hq

theorem passes_le (h : ReflTransGen (Passes fmt) p q) : p.1 ≤ q.1 := by
  induction h with
  | refl => exact le_rfl
  | tail _ hs ih => exact Nat.le_trans ih hs.le

theorem slice_succ (h : i < j) (fmt : List UInt8) : slice fmt i j = byte fmt i :: slice fmt (i + 1) j := by
  have hj : j - i = (j - (i + 1)) + 1 := by omega
  rw [slice, hj, range'_succ, map_cons, slice]

theorem passes_slice (h₀ : Avoids fmt 0 i j) (hc : Avoids fmt '%'.toUInt8 i j) (hij : i ≤ j)
    (args : List Arg) (o : Out) :
    ReflTransGen (Passes fmt) (i, args, o) (j, args, o.adds (slice fmt i j)) := by
  obtain ⟨k, rfl⟩ := Nat.exists_eq_add_of_le hij
  induction k generalizing i o with
  | zero =>
    have hs : slice fmt i (i + 0) = [] := by simp [slice]
    rw [hs]
    exact .refl
  | succ k ih =>
    have hi : i + (k + 1) = i + 1 + k := by omega
    rw [hi] at h₀ hc ⊢
    have hstep := passes_literal (h₀ i le_rfl (by omega)) (hc i le_rfl (by omega)) args o
    have hrest := ih (i := i + 1) (o.bufAdd (byte fmt i)) (fun m hm ↦ h₀ m (by omega))
      (fun m hm ↦ hc m (by omega)) (by omega)
    rw [slice_succ (by omega), Out.adds_cons]
    exact .head hstep hrest

theorem passes_unknown (hi : byte fmt i = '%'.toUInt8)
    (hp : placeholder fmt (i + 1) args = some (.unknown, j, rest)) (hlt : o.buf < o.stop) :
    Passes fmt (i, args, o) (rewind fmt j + 1, rest, o.bufAdd (byte fmt (rewind fmt j))) := by
  refine ⟨by rw [hi]; decide, 0, fun n _ ↦ ?_⟩
  rw [iteration, if_neg (not_not.mpr hi), hp, Option.bind_some]
  simp only [perform, if_pos hlt]

/-- A `%` right behind an unknown placeholder is taken for its own. -/
theorem not_copies (hi : byte fmt i = '%'.toUInt8)
    (hp : placeholder fmt (i + 1) args = some (.unknown, j, rest)) (hlt : o.buf < o.stop)
    (hj : byte fmt j = '%'.toUInt8) : ¬Copies fmt i j args rest o := by
  intro hx
  obtain ⟨h, -⟩ := hx
  have hij : i < j := by
    obtain ⟨rfl, -, -⟩ := placeholder_form hp
    have hx := (typeAt_noPercent fmt (i + 1)).1
    omega
  have hown : rewind fmt j = j := by
    cases j with
    | zero => rfl
    | succ j => rw [rewind, if_pos hj]
  have hstep := passes_unknown hi hp hlt
  rw [hown] at hstep
  rcases h.cases_head with h | ⟨q, hq, h⟩
  · have hx := congrArg Prod.fst h
    dsimp only at hx
    omega
  · have hx := passes_le h
    have hq' := congrArg Prod.fst (hstep.unique hq)
    dsimp only at hx hq'
    omega

/-- An unknown placeholder is copied and the format is gone on with behind it,
unless a `%` follows it. -/
theorem copies_unknown_iff (hi : byte fmt i = '%'.toUInt8)
    (hp : placeholder fmt (i + 1) args = some (.unknown, j, rest)) (ht : byte fmt (j - 1) ≠ 0)
    (hr : o.buf + (j - i) ≤ o.stop) :
    Copies fmt i j args rest o ↔ byte fmt j ≠ '%'.toUInt8 := by
  obtain ⟨rfl, hk, -⟩ := placeholder_form hp
  obtain ⟨hle, hn⟩ := typeAt_noPercent fmt (i + 1)
  have hlt : o.buf < o.stop := by omega
  constructor
  · intro h hj
    exact not_copies hi hp hlt hj h
  · intro hj
    have htype : byte fmt (typeAt fmt (i + 1)) ≠ '%'.toUInt8 := by
      intro hx
      rw [hx] at hk
      cases hk
    have hown : rewind fmt (typeAt fmt (i + 1) + 1) = i :=
      rewind_eq hi (by omega) (Avoids.trans hn (Avoids.trans (.succ htype) (.succ hj)))
    have hstep := passes_unknown hi hp hlt
    rw [hown] at hstep
    have hzero := (typeAt_avoids (d := 0) (by decide) fmt (i + 1)).2
    have hrest := passes_slice (Avoids.trans hzero (.succ ht)) (Avoids.trans hn (.succ htype)) (by omega)
      rest (o.bufAdd (byte fmt i))
    rw [Copies, slice_succ (by omega), Out.adds_cons]
    have hpasses := ReflTransGen.head hstep hrest
    obtain ⟨k, N, hN⟩ := format_passes hpasses
    exact ⟨hpasses, k, N, fun n hn ↦ (hN n hn).trans (format_drop n fmt _ 0 rest _)⟩

/-- `%5y` in front of a `z`. -/
theorem copies_unknown_small : Copies [37, 53, 121, 122] 0 3 [] [] (.start 4096 8) :=
  (copies_unknown_iff rfl rfl (by decide) (by decide)).mpr (by decide)

/-- In `%y%d` the second `%` is printed in place of the unknown placeholder. -/
theorem copies_unknown_wrong : ¬ ∀ (fmt : List UInt8) (i j : ℕ) (args rest : List Arg) (o : Out),
    byte fmt i = '%'.toUInt8 → placeholder fmt (i + 1) args = some (.unknown, j, rest) →
    byte fmt (j - 1) ≠ 0 → o.buf + (j - i) ≤ o.stop → Copies fmt i j args rest o := by
  intro h
  have hp : placeholder [37, 121, 37, 100] 1 [.int 7] = some (.unknown, 2, [.int 7]) := rfl
  exact not_copies rfl hp (by decide : (Out.start 4096 8).buf < (Out.start 4096 8).stop) rfl
    (h _ 0 2 _ _ _ rfl hp (by decide) (by decide))

end OcamlRpi.Printf
