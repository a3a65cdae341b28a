import Mathlib.Tactic.NormNum
import OcamlRpi.Framebuffer.Tags

namespace OcamlRpi.Framebuffer

open List

/-- The values that the counter of `for(i = start; i < stop; i += step)` takes.
As long as the loop runs, there is no result. -/
def counts (step stop : UInt32) : ℕ → UInt32 → Option (List UInt32)
  | 0, _ => none
  | n + 1, i => if i < stop then (counts step stop n (i + step)).map (i :: ·) else some []

/-- A pixel that is drawn, by its coordinates. -/
structure Pixel where
  x : UInt32
  y : UInt32
  red : UInt8
  green : UInt8
  blue : UInt8

/-- A byte that is written, and its address. -/
abbrev Store := UInt32 × UInt8

namespace FB

variable (fb : FB)

/-- `fb.base + x * sizeof(Pixel) + y * fb.pitch` -/
def address (x y : UInt32) : UInt32 := fb.base + x * 4 + y * fb.pitch

def stores (p : Pixel) : List Store :=
  [(fb.address p.x p.y, p.red), (fb.address p.x p.y + 1, p.green), (fb.address p.x p.y + 2, p.blue)]

/-- Set alpha to 0xff everywhere. -/
def alphaFill (n : ℕ) : Option (List Store) :=
  (counts 4 fb.size n 3).map fun ns ↦ ns.map fun n ↦ (fb.base + n, 0xff)

def chessboard (n : ℕ) : Option (List Pixel) := do
  let ys ← counts 1 fb.height n 0
  let xs ← counts 1 fb.width n 0
  some (ys.flatMap fun y ↦ xs.map fun x ↦
    let col := if (x &&& 16) ^^^ (y &&& 16) ≠ 0 then 0x00 else 0xff
    ⟨x, y, col, col, col⟩)

/-- The red fade at the top and the blue fade at the bottom. -/
def fadesAcross : List Pixel :=
  (range 16).flatMap fun y ↦ (range' 16 256).flatMap fun x ↦
    [⟨.ofNat x, .ofNat y, .ofNat (x - 16), 0, 0⟩, ⟨.ofNat x, fb.height - .ofNat y - 1, 0, 0, .ofNat (x - 16)⟩]

/-- The green fade at the left and the grey fade at the right. -/
def fadesDown : List Pixel :=
  (range' 16 256).flatMap fun y ↦ (range 16).flatMap fun x ↦
    [⟨.ofNat x, .ofNat y, 0, .ofNat (y - 16), 0⟩,
      ⟨fb.width - .ofNat x - 1, .ofNat y, .ofNat (y - 16), .ofNat (y - 16), .ofNat (y - 16)⟩]

def pixels (n : ℕ) : Option (List Pixel) :=
  (fb.chessboard n).map fun ps ↦ ps ++ fb.fadesAcross ++ fb.fadesDown

/-- What `ocaml_rpi__fb_init` draws after its last check. -/
def draw (n : ℕ) : Option (List Store × List Pixel) := do
  let alpha ← fb.alphaFill n
  let ps ← fb.pixels n
  some (alpha ++ ps.flatMap fb.stores, ps)

/-- The rows lie one after the other in the framebuffer. -/
structure Consistent : Prop where
  width : fb.width ≠ 0
  height : fb.height ≠ 0
  pitch : 4 * fb.width.toNat ≤ fb.pitch.toNat
  size : fb.pitch.toNat * fb.height.toNat ≤ fb.size.toNat
  top : fb.base.toNat + fb.size.toNat ≤ 2 ^ 32

/-- The byte at the address `a` is in the framebuffer. -/
def Owns (a : UInt32) : Prop := fb.base.toNat ≤ a.toNat ∧ a.toNat < fb.base.toNat + fb.size.toNat

/-- The drawing ends, and stays in the framebuffer and on the display. -/
def DrawsInside : Prop :=
  ∃ r, (∃ N, ∀ n, N ≤ n → fb.draw n = some r) ∧ (∀ s ∈ r.1, fb.Owns s.1) ∧
    ∀ p ∈ r.2, p.x < fb.width ∧ p.y < fb.height

end FB

/-- A framebuffer for which `fbInit` gets to the drawing. -/
def Accepted (fb : FB) : Prop :=
  ∃ fw buf fb₀, firstFailed fw buf = .SUCCESS ∧ fbInit fw buf fb₀ = some (intVal Error.SUCCESS.code, fb)

variable {step stop i j : UInt32} {l : List UInt32} {n : ℕ} {fb : FB} {p : Pixel} {x y : ℕ}

theorem counts_lt (h : counts step stop n i = some l) : ∀ j ∈ l, j < stop := by
  induction n generalizing i l with
  | zero => cases h
  | succ n ih =>
    unfold counts at h
    split_ifs at h with hi
    · obtain ⟨k, hk, rfl⟩ := Option.map_eq_some_iff.mp h
      exact forall_mem_cons.mpr ⟨hi, ih hk⟩
    · cases h
      exact forall_mem_nil _

/-- A counter that gets to `2 ^ 32 - 1` does not wrap before the loop ends. -/
theorem counts_ends (hs : 0 < step.toNat) (hd : step.toNat ∣ 2 ^ 32 - 1 - i.toNat) (stop : UInt32) :
    ∃ l N, ∀ n, N ≤ n → counts step stop n i = some l := by
  obtain ⟨k, hk⟩ := hd
  induction k generalizing i with
  | zero =>
    refine ⟨[], 1, fun n hn ↦ ?_⟩
    obtain ⟨m, rfl⟩ : ∃ m, n = m + 1 := ⟨n - 1, by omega⟩
    have hlt := stop.toNat_lt
    rw [counts, if_neg]
    rw [UInt32.lt_iff_toNat_lt]
    omega
  | succ k ih =>
    rw [Nat.mul_succ] at hk
    have hi := i.toNat_lt
    have hnext : (i + step).toNat = i.toNat + step.toNat := by
      rw [UInt32.toNat_add]
      omega
    obtain ⟨l, N, hN⟩ := ih (i := i + step) (by rw [hnext]; omega)
    by_cases h : i < stop
    · refine ⟨i :: l, N + 1, fun n hn ↦ ?_⟩
      obtain ⟨m, rfl⟩ : ∃ m, n = m + 1 := ⟨n - 1, by omega⟩
      rw [counts, if_pos h, hN m (by omega)]
      rfl
    · refine ⟨[], 1, fun n hn ↦ ?_⟩
      obtain ⟨m, rfl⟩ : ∃ m, n = m + 1 := ⟨n - 1, by omega⟩
      rw [counts, if_neg h]

namespace FB

/-- The bytes of a pixel lie in its row and column. -/
theorem Consistent.toNat_byte (h : fb.Consistent) {x y k : UInt32} (hx : x < fb.width) (hy : y < fb.height)
    (hk : k.toNat < 4) :
    (fb.address x y + k).toNat = fb.base.toNat + (x.toNat * 4 + k.toNat + y.toNat * fb.pitch.toNat) ∧
      x.toNat * 4 + k.toNat + y.toNat * fb.pitch.toNat < fb.size.toNat := by
  rw [UInt32.lt_iff_toNat_lt] at hx hy
  have hrow : y.toNat * fb.pitch.toNat + fb.pitch.toNat ≤ fb.pitch.toNat * fb.height.toNat := by
    rw [← Nat.succ_mul, Nat.mul_comm]
    exact Nat.mul_le_mul_left _ hy
  have hpitch := h.pitch
  have hsize := h.size
  have htop := h.top
  have h₄ : (4 : UInt32).toNat = 4 := rfl
  have hcol : (x * 4).toNat = x.toNat * 4 := by
    rw [UInt32.toNat_mul, h₄, Nat.mod_eq_of_lt (by omega)]
  have hline : (y * fb.pitch).toNat = y.toNat * fb.pitch.toNat := by
    rw [UInt32.toNat_mul, Nat.mod_eq_of_lt (by omega)]
  have haddress : (fb.address x y).toNat = fb.base.toNat + x.toNat * 4 + y.toNat * fb.pitch.toNat := by
    rw [address, UInt32.toNat_add, UInt32.toNat_add, hcol, hline]
    omega
  rw [UInt32.toNat_add, haddress]
  omega

/-- The first three bytes of a pixel are those of its row and column. -/
theorem Consistent.owns_stores (h : fb.Consistent) (hx : p.x < fb.width) (hy : p.y < fb.height) :
    ∀ s ∈ fb.stores p, fb.Owns s.1 := by
  have hbyte : ∀ k : UInt32, k.toNat < 4 → fb.Owns (fb.address p.x p.y + k) := by
    intro k hk
    obtain ⟨hbase, hsize⟩ := h.toNat_byte hx hy hk
    constructor <;> omega
  have hfirst := hbyte 0 (by decide)
  rw [UInt32.add_zero] at hfirst
  exact forall_mem_cons.mpr ⟨hfirst, forall_mem_cons.mpr ⟨hbyte 1 (by decide),
    forall_mem_singleton.mpr (hbyte 2 (by decide))⟩⟩

theorem Consistent.owns_alpha (h : fb.Consistent) {ss : List Store} (hs : fb.alphaFill n = some ss) :
    ∀ s ∈ ss, fb.Owns s.1 := by
  obtain ⟨ns, hns, rfl⟩ := Option.map_eq_some_iff.mp hs
  refine forall_mem_map.mpr fun k hk ↦ ?_
  have hlt := UInt32.lt_iff_toNat_lt.mp (counts_lt hns k hk)
  have htop := h.top
  have hsum : (fb.base + k).toNat = fb.base.toNat + k.toNat := by
    rw [UInt32.toNat_add]
    omega
  show fb.Owns (fb.base + k)
  constructor <;> omega

theorem chessboard_lt {ps : List Pixel} (h : fb.chessboard n = some ps) :
    ∀ p ∈ ps, p.x < fb.width ∧ p.y < fb.height := by
  obtain ⟨ys, hys, h⟩ := Option.bind_eq_some_iff.mp h
  obtain ⟨xs, hxs, h⟩ := Option.bind_eq_some_iff.mp h
  cases h
  intro p hp
  obtain ⟨y, hy, hp⟩ := mem_flatMap.mp hp
  obtain ⟨x, hx, rfl⟩ := mem_map.mp hp
  exact ⟨counts_lt hxs x hx, counts_lt hys y hy⟩

theorem draw_ends (fb : FB) : ∃ r N, ∀ n, N ≤ n → fb.draw n = some r := by
  have hbytes : (4 : UInt32).toNat ∣ 2 ^ 32 - 1 - (3 : UInt32).toNat := by decide
  have hpixels : (1 : UInt32).toNat ∣ 2 ^ 32 - 1 - (0 : UInt32).toNat := by decide
  obtain ⟨ns, N, hN⟩ := counts_ends (by decide) hbytes fb.size
  obtain ⟨ys, M, hM⟩ := counts_ends (by decide) hpixels fb.height
  obtain ⟨xs, K, hK⟩ := counts_ends (by decide) hpixels fb.width
  have hn : ∀ n, max N (max M K) ≤ n → fb.draw n = fb.draw (max N (max M K)) := by
    intro n hn
    simp only [draw, alphaFill, pixels, chessboard, hN n (by omega), hM n (by omega), hK n (by omega),
      hN (max N (max M K)) (by omega), hM (max N (max M K)) (by omega), hK (max N (max M K)) (by omega)]
  have hr : (fb.draw (max N (max M K))).isSome := by
    rw [draw, alphaFill, pixels, chessboard, hN _ (by omega), hM _ (by omega), hK _ (by omega)]
    rfl
  obtain ⟨r, hr⟩ := Option.isSome_iff_exists.mp hr
  exact ⟨r, _, fun n h ↦ (hn n h).trans hr⟩

/-- The coordinate opposite to another one on a display of `m` pixels. -/
theorem toNat_opposite {m : UInt32} {k : ℕ} (h : k < m.toNat) :
    (m - UInt32.ofNat k - 1).toNat = m.toNat - k - 1 := by
  have hm := m.toNat_lt
  have hk : (UInt32.ofNat k).toNat = k := UInt32.toNat_ofNat_of_lt' (by unfold UInt32.size; omega)
  have hsub : (m - UInt32.ofNat k).toNat = m.toNat - k := by
    rw [UInt32.toNat_sub_of_le _ _ (by rw [UInt32.le_iff_toNat_le]; omega), hk]
  have h₁ : (1 : UInt32).toNat = 1 := rfl
  rw [UInt32.toNat_sub_of_le _ _ (by rw [UInt32.le_iff_toNat_le]; omega), hsub, h₁]

/-- A coordinate, and the one opposite to it, of a display of `m` pixels. -/
theorem ofNat_lt {m : UInt32} {k : ℕ} (h : k < m.toNat) :
    UInt32.ofNat k < m ∧ m - UInt32.ofNat k - 1 < m := by
  have hm := m.toNat_lt
  have hk : (UInt32.ofNat k).toNat = k := UInt32.toNat_ofNat_of_lt' (by unfold UInt32.size; omega)
  have hopp := toNat_opposite h
  rw [UInt32.lt_iff_toNat_lt, UInt32.lt_iff_toNat_lt]
  omega

theorem fadesAcross_lt (hw : 272 ≤ fb.width.toNat) (hh : 272 ≤ fb.height.toNat) :
    ∀ p ∈ fb.fadesAcross, p.x < fb.width ∧ p.y < fb.height := by
  intro p hp
  obtain ⟨y, hy, hp⟩ := mem_flatMap.mp hp
  obtain ⟨x, hx, hp⟩ := mem_flatMap.mp hp
  have hx' := (ofNat_lt (m := fb.width) (k := x) (by have h := (mem_range'_1.mp hx).2; omega)).1
  have hy' := ofNat_lt (m := fb.height) (k := y) (by have h := mem_range.mp hy; omega)
  simp only [mem_cons, not_mem_nil, or_false] at hp
  rcases hp with rfl | rfl
  · exact ⟨hx', hy'.1⟩
  · exact ⟨hx', hy'.2⟩

theorem fadesDown_lt (hw : 272 ≤ fb.width.toNat) (hh : 272 ≤ fb.height.toNat) :
    ∀ p ∈ fb.fadesDown, p.x < fb.width ∧ p.y < fb.height := by
  intro p hp
  obtain ⟨y, hy, hp⟩ := mem_flatMap.mp hp
  obtain ⟨x, hx, hp⟩ := mem_flatMap.mp hp
  have hx' := ofNat_lt (m := fb.width) (k := x) (by have h := mem_range.mp hx; omega)
  have hy' := (ofNat_lt (m := fb.height) (k := y) (by have h := (mem_range'_1.mp hy).2; omega)).1
  simp only [mem_cons, not_mem_nil, or_false] at hp
  rcases hp with rfl | rfl
  · exact ⟨hx'.1, hy'⟩
  · exact ⟨hx'.2, hy'⟩

theorem pixels_lt (hw : 272 ≤ fb.width.toNat) (hh : 272 ≤ fb.height.toNat) {ps : List Pixel}
    (hp : fb.pixels n = some ps) : ∀ p ∈ ps, p.x < fb.width ∧ p.y < fb.height := by
  obtain ⟨cs, hc, rfl⟩ := Option.map_eq_some_iff.mp hp
  exact forall_mem_append.mpr ⟨forall_mem_append.mpr ⟨chessboard_lt hc, fadesAcross_lt hw hh⟩, fadesDown_lt hw hh⟩

/-- The fades have a fixed extent: they end at the coordinate 271. -/
theorem DrawsInside.large (h : fb.DrawsInside) : 272 ≤ fb.width.toNat ∧ 272 ≤ fb.height.toNat := by
  obtain ⟨r, ⟨N, hN⟩, -, hps⟩ := h
  obtain ⟨ss, -, hr⟩ := Option.bind_eq_some_iff.mp (hN N le_rfl)
  obtain ⟨ps, hp, hr⟩ := Option.bind_eq_some_iff.mp hr
  cases hr
  obtain ⟨cs, -, rfl⟩ := Option.map_eq_some_iff.mp hp
  constructor
  · have hmem : (⟨.ofNat 271, .ofNat 0, .ofNat 255, 0, 0⟩ : Pixel) ∈ fb.fadesAcross :=
      mem_flatMap.mpr ⟨0, by decide, mem_flatMap.mpr ⟨271, by decide, mem_cons_self⟩⟩
    have hx := (hps _ (mem_append_left _ (mem_append_right _ hmem))).1
    rw [UInt32.lt_iff_toNat_lt] at hx
    exact hx
  · have hmem : (⟨.ofNat 0, .ofNat 271, 0, .ofNat 255, 0⟩ : Pixel) ∈ fb.fadesDown :=
      mem_flatMap.mpr ⟨271, by decide, mem_flatMap.mpr ⟨0, by decide, mem_cons_self⟩⟩
    have hy := (hps _ (mem_append_right _ hmem)).2
    rw [UInt32.lt_iff_toNat_lt] at hy
    exact hy

/-- The drawing stays in a consistent framebuffer exactly if the display has
room for the fades. -/
theorem drawsInside_iff (h : fb.Consistent) :
    fb.DrawsInside ↔ 272 ≤ fb.width.toNat ∧ 272 ≤ fb.height.toNat := by
  refine ⟨DrawsInside.large, fun ⟨hw, hh⟩ ↦ ?_⟩
  obtain ⟨r, N, hN⟩ := fb.draw_ends
  obtain ⟨ss, hs, hr⟩ := Option.bind_eq_some_iff.mp (hN N le_rfl)
  obtain ⟨ps, hp, hr⟩ := Option.bind_eq_some_iff.mp hr
  cases hr
  have hlt := pixels_lt hw hh hp
  refine ⟨_, ⟨N, hN⟩, forall_mem_append.mpr ⟨h.owns_alpha hs, fun s hs ↦ ?_⟩, hlt⟩
  obtain ⟨p, hp, hs⟩ := mem_flatMap.mp hs
  exact h.owns_stores (hlt p hp).1 (hlt p hp).2 s hs

theorem drawsInside_full : FB.DrawsInside ⟨0xDE000000, 1228800, 2560, 640, 480⟩ :=
  (drawsInside_iff ⟨by decide, by decide, by decide, by decide, by decide⟩).mpr (by decide)

end FB

def smallReply : Firmware := .replies [[32, 0x80000000, 0x40003, 8, 0x80000008, 64, 64, 0],
  [88, 0x80000000, 0x40001, 8, 0x80000008, 0x1E000000, 16384, 0], [28, 0x80000000, 0x40008, 4, 0x80000004, 256, 0]]

theorem accepted_small : Accepted ⟨0xDE000000, 16384, 256, 64, 64⟩ := by
  have hscan : scan (setupReply smallReply fun _ ↦ 0) setupLength 2 = some 2 := by
    rw [scan_eq, if_pos (by decide +kernel)]
  refine ⟨smallReply, fun _ ↦ 0, ⟨0, 0, 0, 0, 0⟩, ?_, ?_⟩
  · simp only [firstFailed, checks, hscan]
    decide +kernel
  · simp only [fbInit, exchange_resolution, exchange_setup, exchange_pitch, Option.bind_eq_bind,
      Option.bind_some]
    decide +kernel

/-- The fades are drawn beside and below a display of 64 by 64. -/
theorem drawsInside_wrong : ¬ ∀ fb : FB, Accepted fb → fb.Consistent → fb.DrawsInside := by
  intro h
  have hsmall := (h _ accepted_small ⟨by decide, by decide, by decide, by decide, by decide⟩).large
  exact absurd hsmall (by decide)

end OcamlRpi.Framebuffer
