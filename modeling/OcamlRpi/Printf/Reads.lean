import OcamlRpi.Printf.Directive
import OcamlRpi.Printf.Truncation
import OcamlRpi.Printf.Unknown

namespace OcamlRpi.Printf

open Function List Relation

/-- The offsets that the label `repeat` reads. -/
def flagsReads : List UInt8 → ℕ → List ℕ
  | [], i => [i]
  | c :: cs, i => i :: if c ∈ FLAGS then flagsReads cs (i + 1) else []

def atoiReads : List UInt8 → ℕ → List ℕ
  | [], i => [i]
  | c :: cs, i => i :: if isdigit c then atoiReads cs (i + 1) else []

def widthReads (fmt : List UInt8) (i : ℕ) : List ℕ :=
  i :: if byte fmt i = '*'.toUInt8 then []
  else i :: if isdigit (byte fmt i) then atoiReads (fmt.drop i) i else []

def precisionReads (fmt : List UInt8) (i : ℕ) : List ℕ :=
  i :: if byte fmt i = '.'.toUInt8 then
    (i + 1) :: if byte fmt (i + 1) = '*'.toUInt8 then [] else atoiReads (fmt.drop (i + 1)) (i + 1)
  else []

def lengthReads (fmt : List UInt8) (i : ℕ) : List ℕ :=
  i :: if byte fmt i = 'h'.toUInt8 ∨ byte fmt i = 'l'.toUInt8 then [i + 1] else []

/-- The offsets that are read for the placeholder whose `%` is right before `i`. -/
def placeholderReads (fmt : List UInt8) (i : ℕ) : List ℕ :=
  let j := flagsEnd fmt i
  let k := widthEnd fmt j
  let m := precisionEnd fmt k
  flagsReads (fmt.drop i) i ++ widthReads fmt j ++ precisionReads fmt k ++ lengthReads fmt m ++
    [typeAt fmt i]

def rewindReads (fmt : List UInt8) : ℕ → List ℕ
  | 0 => [0]
  | i + 1 => (i + 1) :: if byte fmt (i + 1) = '%'.toUInt8 then [] else rewindReads fmt i

def actionReads (fmt : List UInt8) (i : ℕ) : Action → List ℕ
  | .unknown => rewindReads fmt i ++ [rewind fmt i]
  | _ => []

/-- The offsets that the body of the loop reads: `*format++` and `format[-1]`,
or the placeholder. -/
def iterationReads (fmt : List UInt8) (p : Point) : List ℕ :=
  if byte fmt p.1 ≠ '%'.toUInt8 then [p.1, p.1]
  else p.1 :: (placeholderReads fmt (p.1 + 1) ++
    match placeholder fmt (p.1 + 1) p.2.1 with
    | some (action, j, _) => actionReads fmt j action
    | none => [])

/-- The offsets that the loop reads, in order, as long as `format` runs. -/
def formatReads : ℕ → List UInt8 → Point → List ℕ
  | 0, _, _ => []
  | fuel + 1, fmt, p =>
    p.1 :: if byte fmt p.1 = 0 then []
    else iterationReads fmt p ++
      match iteration fuel fmt p with
      | some q => formatReads fuel fmt q
      | none => []

/-- Where the loop goes on. -/
def next (fmt : List UInt8) (i : ℕ) : ℕ :=
  if byte fmt i ≠ '%'.toUInt8 then i + 1
  else if kindOf (byte fmt (typeAt fmt (i + 1))) = .unknown then rewind fmt (typeAt fmt (i + 1) + 1) + 1
  else typeAt fmt (i + 1) + 1

/-- The loop gets from the offset `i` to the offset `j`. -/
def Visits (fmt : List UInt8) : ℕ → ℕ → Prop :=
  ReflTransGen fun i j ↦ byte fmt i ≠ 0 ∧ j = next fmt i

/-- The loop gets from `i` to a placeholder that ends at the NUL. -/
def CutOff (fmt : List UInt8) (nul i : ℕ) : Prop :=
  ∃ j, Visits fmt i j ∧ byte fmt j = '%'.toUInt8 ∧ typeAt fmt (j + 1) = nul

/-- With the text `es` printed, the loop is at the offset `i` and the arguments
`rest` are left. -/
inductive Reached (fmt : List UInt8) (args : List Arg) : ℕ → List Arg → List Emission → Prop where
  | start : Reached fmt args 0 args []
  | literal {i : ℕ} {rest : List Arg} {es : List Emission} (h : Reached fmt args i rest es)
      (h₀ : byte fmt i ≠ 0) (hc : byte fmt i ≠ '%'.toUInt8) :
      Reached fmt args (i + 1) rest (es ++ [.plain (byte fmt i)])
  | placeholder {i j k : ℕ} {rest rest' rest'' : List Arg} {es fs : List Emission} {action : Action}
      (h : Reached fmt args i rest es) (hc : byte fmt i = '%'.toUInt8)
      (hp : placeholder fmt (i + 1) rest = some (action, j, rest'))
      (he : emits fmt j rest' action = some (fs, k, rest'')) : Reached fmt args k rest'' (es ++ fs)

/-- The arguments are those that the format asks for, and the buffer has room
for what it prints, up to the NUL of the format. -/
structure Served (fmt : List UInt8) (args : List Arg) (size nul : ℕ) : Prop where
  supplied : ∀ i rest es, Reached fmt args i rest es → i < nul → byte fmt i = '%'.toUInt8 →
    ∃ action j rest' r, placeholder fmt (i + 1) rest = some (action, j, rest') ∧
      emits fmt j rest' action = some r
  room : ∀ i rest es, Reached fmt args i rest es → i ≤ nul → es.length < size

/-- The loop ends, and reads nothing behind the NUL. -/
def EndsInside (fmt : List UInt8) (nul : ℕ) (p : Point) : Prop :=
  ∃ N, ∀ n, N ≤ n → (format n fmt p.1 p.2.1 p.2.2).isSome ∧ ∀ r ∈ formatReads n fmt p, r ≤ nul

variable {fmt cs : List UInt8} {i j k n nul size buf : ℕ} {args rest rest' : List Arg} {o : Out}
  {p q : Point} {action : Action} {es fs : List Emission} {flags : Flags} {x : ℤ}

theorem flagsReads_le (h : fmt.drop i = cs) : ∀ r ∈ flagsReads cs i, r ≤ (parseFlags cs flags i).2 := by
  induction cs generalizing i flags with
  | nil => simp [flagsReads, parseFlags]
  | cons c cs ih =>
    have hle : i ≤ (parseFlags (c :: cs) flags i).2 := (parseFlags_avoids (d := 0) (by decide) h).1
    refine forall_mem_cons.mpr ⟨hle, ?_⟩
    split_ifs with hc
    · rw [parseFlags_cons hc]
      exact ih (byte_of_drop h).2
    · exact forall_mem_nil _

theorem atoiReads_le (h : fmt.drop i = cs) : ∀ r ∈ atoiReads cs i, r ≤ (atoi cs x i).2 := by
  induction cs generalizing i x with
  | nil => simp [atoiReads, atoi]
  | cons c cs ih =>
    have hle := (atoi_avoids (d := 0) (x := x) (by decide) h).1
    refine forall_mem_cons.mpr ⟨hle, ?_⟩
    split_ifs with hc
    · rw [atoi, if_pos hc]
      exact ih (byte_of_drop h).2
    · exact forall_mem_nil _

theorem widthReads_le (fmt : List UInt8) (i : ℕ) : ∀ r ∈ widthReads fmt i, r ≤ widthEnd fmt i := by
  have hle := (widthEnd_avoids (d := 0) (by decide) fmt i).1
  refine forall_mem_cons.mpr ⟨hle, ?_⟩
  split_ifs with hs hd
  · exact forall_mem_nil _
  · refine forall_mem_cons.mpr ⟨hle, ?_⟩
    rw [widthEnd, if_neg hs, if_pos hd]
    exact atoiReads_le rfl
  · exact forall_mem_singleton.mpr hle

theorem precisionReads_le (fmt : List UInt8) (i : ℕ) :
    ∀ r ∈ precisionReads fmt i, r ≤ precisionEnd fmt i := by
  have hle := (precisionEnd_avoids (d := 0) (by decide) fmt i).1
  refine forall_mem_cons.mpr ⟨hle, ?_⟩
  split_ifs with hd hs
  · rw [precisionEnd, if_pos hd, if_pos hs]
    exact forall_mem_singleton.mpr (Nat.le_succ _)
  · rw [precisionEnd, if_pos hd, if_neg hs]
    exact forall_mem_cons.mpr ⟨(atoi_avoids (d := 0) (by decide) rfl).1, atoiReads_le rfl⟩
  · exact forall_mem_nil _

theorem lengthReads_le (fmt : List UInt8) (i : ℕ) : ∀ r ∈ lengthReads fmt i, r ≤ (parseLength fmt i).2 := by
  have hle := (parseLength_avoids (d := 0) (by decide) fmt i).1
  refine forall_mem_cons.mpr ⟨hle, ?_⟩
  split_ifs with h
  · refine forall_mem_singleton.mpr ?_
    unfold parseLength
    rcases h with h | h
    · have hc : Char.ofUInt8 (byte fmt i) = 'h' := by
        rw [h]
        decide
      rw [hc]
      show i + 1 ≤ (if byte fmt (i + 1) = 'h'.toUInt8 then (1, i + 2) else (2, i + 1)).2
      split_ifs <;> simp
    · have hc : Char.ofUInt8 (byte fmt i) = 'l' := by
        rw [h]
        decide
      rw [hc]
      show i + 1 ≤ (if byte fmt (i + 1) = 'l'.toUInt8 then (8, i + 2) else (4, i + 1)).2
      split_ifs <;> simp
  · exact forall_mem_nil _

theorem placeholderReads_le (fmt : List UInt8) (i : ℕ) : ∀ r ∈ placeholderReads fmt i, r ≤ typeAt fmt i := by
  have h₁ := (widthEnd_avoids (d := 0) (by decide) fmt (flagsEnd fmt i)).1
  have h₂ := (precisionEnd_avoids (d := 0) (by decide) fmt (widthEnd fmt (flagsEnd fmt i))).1
  have h₃ := (parseLength_avoids (d := 0) (by decide) fmt (precisionEnd fmt (widthEnd fmt (flagsEnd fmt i)))).1
  have h₄ : (parseLength fmt (precisionEnd fmt (widthEnd fmt (flagsEnd fmt i)))).2 = typeAt fmt i := rfl
  intro r hr
  simp only [placeholderReads, mem_append, mem_singleton] at hr
  rcases hr with (((hr | hr) | hr) | hr) | hr
  · have hx : r ≤ flagsEnd fmt i := flagsReads_le rfl r hr
    omega
  · have hx := widthReads_le _ _ r hr
    omega
  · have hx := precisionReads_le _ _ r hr
    omega
  · have hx := lengthReads_le _ _ r hr
    omega
  · exact Nat.le_of_eq hr

theorem rewindReads_le (fmt : List UInt8) (i : ℕ) : ∀ r ∈ rewindReads fmt i, r ≤ i := by
  induction i with
  | zero => exact forall_mem_singleton.mpr le_rfl
  | succ i ih =>
    refine forall_mem_cons.mpr ⟨le_rfl, ?_⟩
    split_ifs
    · exact forall_mem_nil _
    · exact fun r hr ↦ Nat.le_succ_of_le (ih r hr)

theorem self_mem_rewindReads (fmt : List UInt8) (i : ℕ) : i ∈ rewindReads fmt i := by
  cases i <;> exact mem_cons_self

theorem rewind_le (fmt : List UInt8) (i : ℕ) : rewind fmt i ≤ i := by
  induction i with
  | zero => exact le_rfl
  | succ i ih =>
    rw [rewind]
    split_ifs
    · exact le_rfl
    · omega

theorem actionReads_le (fmt : List UInt8) (i : ℕ) (action : Action) :
    ∀ r ∈ actionReads fmt i action, r ≤ i := by
  cases action with
  | unknown =>
    intro r hr
    rcases mem_append.mp hr with hr | hr
    · exact rewindReads_le fmt i r hr
    · rw [mem_singleton.mp hr]
      exact rewind_le fmt i
  | _ => exact forall_mem_nil _

theorem typeAt_le (hnul : byte fmt nul = 0) (hi : i ≤ nul) : typeAt fmt i ≤ nul := by
  by_contra h
  exact (typeAt_avoids (d := 0) (by decide) fmt i).2 nul hi (by omega) hnul

theorem emits_next (hi : byte fmt i = '%'.toUInt8)
    (hp : placeholder fmt (i + 1) args = some (action, j, rest))
    (he : emits fmt j rest action = some (fs, k, rest')) : j = typeAt fmt (i + 1) + 1 ∧ k = next fmt i := by
  obtain ⟨rfl, hk, -⟩ := placeholder_form hp
  refine ⟨rfl, ?_⟩
  rw [next, if_neg (not_not.mpr hi), ← hk]
  cases action with
  | number => cases he; rfl
  | char =>
    simp only [emits] at he
    split at he <;> cases he
    rfl
  | string => cases he; rfl
  | percent => cases he; rfl
  | unknown => cases he; rfl

theorem byte_rewind (hi : byte fmt i = '%'.toUInt8) (hij : i ≤ j) :
    byte fmt (rewind fmt j) = '%'.toUInt8 := by
  induction j, hij using Nat.le_induction with
  | base =>
    cases i with
    | zero => exact hi
    | succ i => rwa [rewind, if_pos hi]
  | succ j hij ih =>
    rw [rewind]
    split_ifs with h
    · exact h
    · exact ih

theorem lt_next (fmt : List UInt8) (i : ℕ) : i < next fmt i := by
  have hle := (typeAt_noPercent fmt (i + 1)).1
  unfold next
  split_ifs with hc hk
  · omega
  · have hx := le_rewind (not_not.mp hc) (by omega : i ≤ typeAt fmt (i + 1) + 1)
    omega
  · omega

/-- The loop stays in front of the NUL as long as no placeholder ends there. -/
theorem next_le (hnul : byte fmt nul = 0) (hi : i < nul)
    (hcut : ¬(byte fmt i = '%'.toUInt8 ∧ typeAt fmt (i + 1) = nul)) : next fmt i ≤ nul := by
  have hle : typeAt fmt (i + 1) ≤ nul := typeAt_le hnul hi
  have hge := (typeAt_noPercent fmt (i + 1)).1
  unfold next
  split_ifs with hc hk
  · exact hi
  · have hne : typeAt fmt (i + 1) ≠ nul := fun h ↦ hcut ⟨not_not.mp hc, h⟩
    have hback := byte_rewind (not_not.mp hc) (by omega : i ≤ typeAt fmt (i + 1) + 1)
    have hlast : rewind fmt (typeAt fmt (i + 1) + 1) ≠ nul := by
      intro h
      rw [h, hnul] at hback
      exact absurd hback (by decide)
    have hx := rewind_le fmt (typeAt fmt (i + 1) + 1)
    omega
  · have hne : typeAt fmt (i + 1) ≠ nul := fun h ↦ hcut ⟨not_not.mp hc, h⟩
    omega

theorem iterationReads_le (hnul : byte fmt nul = 0) (hi : i < nul)
    (hcut : ¬(byte fmt i = '%'.toUInt8 ∧ typeAt fmt (i + 1) = nul)) :
    ∀ r ∈ iterationReads fmt (i, args, o), r ≤ nul := by
  unfold iterationReads
  split_ifs with hc
  · exact forall_mem_cons.mpr ⟨Nat.le_of_lt hi, forall_mem_singleton.mpr (Nat.le_of_lt hi)⟩
  · have hle : typeAt fmt (i + 1) ≤ nul := typeAt_le hnul hi
    have hne : typeAt fmt (i + 1) ≠ nul := fun h ↦ hcut ⟨not_not.mp hc, h⟩
    refine forall_mem_cons.mpr ⟨Nat.le_of_lt hi, forall_mem_append.mpr ⟨fun r hr ↦ ?_, ?_⟩⟩
    · exact Nat.le_trans (placeholderReads_le fmt (i + 1) r hr) hle
    · split
      next action j rest hp =>
        obtain ⟨rfl, -, -⟩ := placeholder_form hp
        intro r hr
        have hx : r ≤ typeAt fmt (i + 1) + 1 := actionReads_le fmt _ action r hr
        omega
      next => exact forall_mem_nil _

theorem Served.step (hv : Served fmt args size nul) (hs : buf + size < 2 ^ 32) (hnul : byte fmt nul = 0)
    (hfirst : ∀ m < nul, byte fmt m ≠ 0) (hR : Reached fmt args i rest es) (hi : i < nul)
    (hcut : ¬(byte fmt i = '%'.toUInt8 ∧ typeAt fmt (i + 1) = nul)) :
    ∃ rest' es', Reached fmt args (next fmt i) rest' es' ∧
      Passes fmt (i, rest, (Out.start buf size).adds (chars es))
        (next fmt i, rest', (Out.start buf size).adds (chars es')) := by
  by_cases hc : byte fmt i = '%'.toUInt8
  · obtain ⟨action, j, rest', ⟨fs, k, rest''⟩, hp, he⟩ := hv.supplied i rest es hR hi hc
    obtain ⟨rfl, rfl⟩ := emits_next hc hp he
    have hR' := hR.placeholder hc hp he
    have hroom := hv.room _ _ _ hR' (next_le hnul hi hcut)
    obtain ⟨hst, -⟩ := room_start hs
    rw [length_append] at hroom
    have hbuf : ((Out.start buf size).adds (chars es)).buf = buf + es.length := by
      rw [Out.adds_buf, length_chars]
      · rfl
      · rw [length_chars]
        show buf + es.length < 2 ^ 32
        omega
    have hcon : contribution fmt i rest = some (fs, next fmt i, rest'') := by
      rw [contribution, hp, Option.bind_some, he]
    have hp' := passes_contribution (o := (Out.start buf size).adds (chars es)) hc hcon
      (by rw [Out.adds_stop]; omega) (by rw [Out.adds_stop]; omega)
    rw [← Out.adds_append, ← chars_append] at hp'
    exact ⟨rest'', es ++ fs, hR', hp'⟩
  · have hnext : next fmt i = i + 1 := if_pos hc
    have hR' := hR.literal (hfirst i hi) hc
    have hp := passes_literal (hfirst i hi) hc rest ((Out.start buf size).adds (chars es))
    rw [hnext]
    refine ⟨rest, _, hR', ?_⟩
    rw [chars_append, Out.adds_append]
    exact hp

/-- The rewinding starts behind the type, and with it behind the NUL. -/
theorem cutOff_reads (hv : Served fmt args size nul) (hnul : byte fmt nul = 0) (hR : Reached fmt args i rest es)
    (hi : i < nul) (hc : byte fmt i = '%'.toUInt8) (ht : typeAt fmt (i + 1) = nul) (o : Out) :
    nul + 1 ∈ iterationReads fmt (i, rest, o) := by
  obtain ⟨action, j, rest', -, hp, -⟩ := hv.supplied i rest es hR hi hc
  obtain ⟨rfl, hk, -⟩ := placeholder_form hp
  have hzero : kindOf 0 = .unknown := by decide
  rw [ht, hnul, hzero] at hk
  have hunknown : action = .unknown := by
    cases action <;> first | rfl | cases hk
  subst hunknown
  simp only [iterationReads, hc, ne_eq, not_true_eq_false, if_false, hp, ht]
  exact mem_cons_of_mem _ (mem_append_right _ (mem_append_left _ (self_mem_rewindReads fmt (nul + 1))))

theorem formatReads_succ (h₀ : byte fmt p.1 ≠ 0) (h : iteration n fmt p = some q) :
    formatReads (n + 1) fmt p = p.1 :: (iterationReads fmt p ++ formatReads n fmt q) := by
  rw [formatReads, if_neg h₀, h]

theorem EndsInside.of_passes (hp : Passes fmt p q) (hn : p.1 ≤ nul) (hr : ∀ r ∈ iterationReads fmt p, r ≤ nul)
    (hq : EndsInside fmt nul q) : EndsInside fmt nul p := by
  obtain ⟨h₀, N, hN⟩ := hp
  obtain ⟨M, hM⟩ := hq
  refine ⟨max N M + 1, fun n hn' ↦ ?_⟩
  obtain ⟨m, rfl⟩ : ∃ m, n = m + 1 := ⟨n - 1, by omega⟩
  obtain ⟨hsome, hreads⟩ := hM m (by omega)
  have hit := hN m (by omega)
  rw [format_succ, if_neg h₀, hit, Option.bind_some, formatReads_succ h₀ hit]
  exact ⟨hsome, forall_mem_cons.mpr ⟨hn, forall_mem_append.mpr ⟨hr, hreads⟩⟩⟩

/-- In every long enough run something behind the NUL is read. -/
def ReadsBehind (fmt : List UInt8) (nul : ℕ) (p : Point) : Prop :=
  ∃ N, ∀ n, N ≤ n → nul + 1 ∈ formatReads n fmt p

theorem ReadsBehind.not_endsInside (h : ReadsBehind fmt nul p) : ¬EndsInside fmt nul p := by
  intro he
  obtain ⟨N, hN⟩ := h
  obtain ⟨M, hM⟩ := he
  have hx := (hM (max N M) (Nat.le_max_right _ _)).2 _ (hN (max N M) (Nat.le_max_left _ _))
  omega

theorem ReadsBehind.of_passes (hp : Passes fmt p q) (hq : ReadsBehind fmt nul q) :
    ReadsBehind fmt nul p := by
  obtain ⟨h₀, N, hN⟩ := hp
  obtain ⟨M, hM⟩ := hq
  refine ⟨max N M + 1, fun n hn' ↦ ?_⟩
  obtain ⟨m, rfl⟩ : ∃ m, n = m + 1 := ⟨n - 1, by omega⟩
  rw [formatReads_succ h₀ (hN m (by omega))]
  exact mem_cons_of_mem _ (mem_append_right _ (hM m (by omega)))

theorem ReadsBehind.of_iteration (h₀ : byte fmt p.1 ≠ 0) (h : nul + 1 ∈ iterationReads fmt p) :
    ReadsBehind fmt nul p := by
  refine ⟨1, fun n hn ↦ ?_⟩
  obtain ⟨m, rfl⟩ : ∃ m, n = m + 1 := ⟨n - 1, by omega⟩
  rw [formatReads, if_neg h₀]
  exact mem_cons_of_mem _ (mem_append_left _ h)

theorem visits_next (h₀ : byte fmt i ≠ 0)
    (hcut : ¬(byte fmt i = '%'.toUInt8 ∧ typeAt fmt (i + 1) = nul)) :
    CutOff fmt nul i ↔ CutOff fmt nul (next fmt i) := by
  constructor
  · intro h
    obtain ⟨j, hj, hc, ht⟩ := h
    rcases hj.cases_head with rfl | ⟨k, ⟨-, rfl⟩, hj⟩
    · exact absurd ⟨hc, ht⟩ hcut
    · exact ⟨j, hj, hc, ht⟩
  · intro h
    obtain ⟨j, hj, hc, ht⟩ := h
    exact ⟨j, .head ⟨h₀, rfl⟩ hj, hc, ht⟩

theorem not_cutOff_nul (hnul : byte fmt nul = 0) : ¬CutOff fmt nul nul := by
  intro h
  obtain ⟨j, hj, hc, -⟩ := h
  rcases hj.cases_head with rfl | ⟨k, ⟨h₀, -⟩, -⟩
  · rw [hnul] at hc
    exact absurd hc (by decide)
  · exact h₀ hnul

theorem endsInside_nul (hnul : byte fmt nul = 0) (args : List Arg) (o : Out) :
    EndsInside fmt nul (nul, args, o) := by
  refine ⟨1, fun n hn ↦ ?_⟩
  obtain ⟨m, rfl⟩ : ∃ m, n = m + 1 := ⟨n - 1, by omega⟩
  rw [format_succ, formatReads, if_pos hnul, if_pos hnul]
  exact ⟨rfl, forall_mem_singleton.mpr le_rfl⟩

/-- From each state in front of the NUL, by induction on the distance to it. -/
theorem Served.run (hv : Served fmt args size nul) (hs : buf + size < 2 ^ 32) (hnul : byte fmt nul = 0)
    (hfirst : ∀ m < nul, byte fmt m ≠ 0) (d : ℕ) (hd : i + d = nul) (hR : Reached fmt args i rest es) :
    (CutOff fmt nul i → ReadsBehind fmt nul (i, rest, (Out.start buf size).adds (chars es))) ∧
      (¬CutOff fmt nul i → EndsInside fmt nul (i, rest, (Out.start buf size).adds (chars es))) := by
  induction d using Nat.strong_induction_on generalizing i rest es with
  | _ d ih =>
    by_cases hi : i = nul
    · subst hi
      exact ⟨fun h ↦ absurd h (not_cutOff_nul hnul), fun _ ↦ endsInside_nul hnul _ _⟩
    · have hlt : i < nul := by omega
      by_cases hcut : byte fmt i = '%'.toUInt8 ∧ typeAt fmt (i + 1) = nul
      · have hreads := cutOff_reads hv hnul hR hlt hcut.1 hcut.2 ((Out.start buf size).adds (chars es))
        exact ⟨fun _ ↦ .of_iteration (hfirst i hlt) hreads, fun h ↦ absurd ⟨i, .refl, hcut⟩ h⟩
      · obtain ⟨rest', es', hR', hpass⟩ := hv.step hs hnul hfirst hR hlt hcut
        have hle := next_le hnul hlt hcut
        have hgt := lt_next fmt i
        obtain ⟨hbad, hgood⟩ := ih (nul - next fmt i) (by omega) (by omega) hR'
        rw [visits_next (hfirst i hlt) hcut]
        exact ⟨fun h ↦ (hbad h).of_passes hpass,
          fun h ↦ (hgood h).of_passes hpass (Nat.le_of_lt hlt) (iterationReads_le hnul hlt hcut)⟩

/-- The loop ends and reads nothing behind the NUL of the format, unless it
comes to a placeholder that is cut off by the NUL. -/
theorem endsInside_iff (hv : Served fmt args size nul) (hs : buf + size < 2 ^ 32) (hnul : byte fmt nul = 0)
    (hfirst : ∀ m < nul, byte fmt m ≠ 0) :
    EndsInside fmt nul (0, args, .start buf size) ↔ ¬CutOff fmt nul 0 := by
  obtain ⟨hbad, hgood⟩ := hv.run hs hnul hfirst nul (Nat.zero_add nul) .start
  exact ⟨fun h hc ↦ (hbad hc).not_endsInside h, hgood⟩

theorem Reached.text (hR : Reached fmt args i rest' fs) (ht : Text fmt 0 args es rest) :
    ∃ gs, Text fmt i rest' gs rest ∧ es = fs ++ gs := by
  induction hR with
  | start => exact ⟨es, ht, rfl⟩
  | literal _ h₀ hc ih =>
    obtain ⟨gs, hgs, rfl⟩ := ih
    cases hgs with
    | stop h => exact absurd h h₀
    | literal _ _ ht' => exact ⟨_, ht', by simp⟩
    | placeholder h _ _ _ => exact absurd h hc
  | placeholder _ hc hp he ih =>
    obtain ⟨gs, hgs, rfl⟩ := ih
    cases hgs with
    | stop h =>
      rw [hc] at h
      exact absurd h (by decide)
    | literal _ h _ => exact absurd hc h
    | placeholder _ hp' he' ht' =>
      cases hp.symm.trans hp'
      cases he.symm.trans he'
      exact ⟨_, ht', by simp⟩

theorem Text.served (ht : Text fmt 0 args es rest) (hl : es.length < size) (nul : ℕ) :
    Served fmt args size nul where
  supplied := by
    intro i rest' fs hR _ hc
    obtain ⟨gs, hgs, -⟩ := hR.text ht
    cases hgs with
    | stop h =>
      rw [hc] at h
      exact absurd h (by decide)
    | literal _ h _ => exact absurd hc h
    | placeholder _ hp he _ => exact ⟨_, _, _, _, hp, he⟩
  room := by
    intro i rest' fs hR _
    obtain ⟨gs, -, rfl⟩ := hR.text ht
    rw [length_append] at hl
    omega

theorem endsInside_small : EndsInside [37, 100] 2 (0, [.int 123], .start 4096 8) := by
  refine (endsInside_iff (text_number.served (by decide) 2) (by decide) rfl (by decide)).mpr ?_
  intro h
  obtain ⟨j, hj, hc, ht⟩ := h
  rcases hj.cases_head with rfl | ⟨k, ⟨-, rfl⟩, hj⟩
  · exact absurd ht (by decide)
  · have hk : next [37, 100] 0 = 2 := by decide
    rw [hk] at hj
    exact not_cutOff_nul (rfl : byte [37, 100] 2 = 0) ⟨j, hj, hc, ht⟩

/-- A format of a `%` only. -/
theorem endsInside_wrong : ¬ ∀ (fmt : List UInt8) (args : List Arg) (size nul buf : ℕ),
    Served fmt args size nul → buf + size < 2 ^ 32 → byte fmt nul = 0 → (∀ m < nul, byte fmt m ≠ 0) →
    EndsInside fmt nul (0, args, .start buf size) := by
  intro h
  have hfirst : ∀ m < 1, byte [37] m ≠ 0 := by decide
  have hcut : CutOff [37] 1 0 := ⟨0, .refl, rfl, rfl⟩
  have hstop : Text [37] 1 [] [] [] := .stop rfl
  have hserved : Served [37] [] 8 1 := (Text.placeholder (i := 0) rfl rfl rfl hstop).served (by decide) 1
  obtain ⟨hbad, -⟩ := hserved.run (by decide : 4096 + 8 < 2 ^ 32) rfl hfirst 1 rfl .start
  exact (hbad hcut).not_endsInside (h _ _ _ _ 4096 hserved (by decide) rfl hfirst)

end OcamlRpi.Printf
