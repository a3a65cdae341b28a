import Mathlib.Data.Nat.Bitwise
import OcamlRpi.Framebuffer.Draw
import OcamlRpi.Support.Writes

namespace OcamlRpi.Framebuffer

open Support Function List

/-- Red, green and blue. -/
abbrev Colour := UInt8 × UInt8 × UInt8

def Pixel.colour (p : Pixel) : Colour := (p.red, p.green, p.blue)

/-- A pixel as a write to the picture. -/
def Pixel.spot (p : Pixel) : (UInt32 × UInt32) × Colour := ((p.x, p.y), p.colour)

/-- The squares of the chessboard, of which the first is white. -/
def square (x y : ℕ) : Colour := if (x / 16 + y / 16) % 2 = 0 then (0xff, 0xff, 0xff) else (0, 0, 0)

namespace FB

variable (fb : FB)

/-- The picture: fades of 256 steps along the four edges, 16 pixels wide, on a
chessboard. Where two edges meet, the left and the right one are on top. -/
def picture (x y : ℕ) : Colour :=
  if 16 ≤ y ∧ y < 272 ∧ fb.width.toNat ≤ x + 16 then (.ofNat (y - 16), .ofNat (y - 16), .ofNat (y - 16))
  else if 16 ≤ y ∧ y < 272 ∧ x < 16 then (0, .ofNat (y - 16), 0)
  else if 16 ≤ x ∧ x < 272 ∧ fb.height.toNat ≤ y + 16 then (0, 0, .ofNat (x - 16))
  else if 16 ≤ x ∧ x < 272 ∧ y < 16 then (.ofNat (x - 16), 0, 0)
  else square x y

example : picture ⟨0, 0, 0, 640, 480⟩ 639 20 = (4, 4, 4) := by decide

/-- The memory has the colours of the picture at the places of its pixels. -/
def Shows (m : UInt32 → UInt8) (pic : UInt32 × UInt32 → Colour) : Prop :=
  ∀ x y, x < fb.width → y < fb.height → m (fb.address x y + 0) = (pic (x, y)).1 ∧
    m (fb.address x y + 1) = (pic (x, y)).2.1 ∧ m (fb.address x y + 2) = (pic (x, y)).2.2

end FB

variable {step stop i j : UInt32} {l : List UInt32} {n c : ℕ} {fb : FB} {p : Pixel} {ps : List Pixel} {x y x' y' : UInt32}
  {m : UInt32 → UInt8} {pic : UInt32 × UInt32 → Colour} {col : Colour}

theorem mem_counts (h : counts step stop n i = some l) (hc : i.toNat + c * step.toNat < stop.toNat) :
    UInt32.ofNat (i.toNat + c * step.toNat) ∈ l := by
  induction n generalizing i l c with
  | zero => cases h
  | succ n ih =>
    unfold counts at h
    have hi : i < stop := UInt32.lt_iff_toNat_lt.mpr (by omega)
    rw [if_pos hi] at h
    obtain ⟨k, hk, rfl⟩ := Option.map_eq_some_iff.mp h
    cases c with
    | zero =>
      rw [Nat.zero_mul, Nat.add_zero, UInt32.ofNat_toNat]
      exact mem_cons_self
    | succ c =>
      have hstop := stop.toNat_lt
      rw [Nat.succ_mul] at hc ⊢
      have hnext : (i + step).toNat = i.toNat + step.toNat := by
        rw [UInt32.toNat_add]
        omega
      have hsum : i.toNat + (c * step.toNat + step.toNat) = (i + step).toNat + c * step.toNat := by omega
      rw [hsum] at hc ⊢
      exact mem_cons_of_mem _ (ih hk hc)

/-- A later pixel at a place is drawn over an earlier one. -/
theorem written_spot (hc : ∀ p ∈ ps, p.x = x → p.y = y → p.colour = col) (hm : ∃ p ∈ ps, p.x = x ∧ p.y = y) :
    written pic (ps.map Pixel.spot) (x, y) = col := by
  apply written_of_agree
  · intro w hw he
    obtain ⟨p, hp, rfl⟩ := mem_map.mp hw
    obtain ⟨hx, hy⟩ := Prod.mk.inj he
    exact hc p hp hx hy
  · obtain ⟨p, hp, rfl, rfl⟩ := hm
    exact ⟨p.spot, mem_map_of_mem hp, rfl⟩

theorem written_spot_of_notMem (h : ∀ p ∈ ps, p.x = x → p.y ≠ y) :
    written pic (ps.map Pixel.spot) (x, y) = pic (x, y) := by
  apply written_of_notMem
  intro w hw he
  obtain ⟨p, hp, rfl⟩ := mem_map.mp hw
  obtain ⟨hx, hy⟩ := Prod.mk.inj he
  exact h p hp hx hy

/-- The colour of the chessboard is that of the square. -/
theorem square_eq (x y : UInt32) :
    (let col : UInt8 := if (x &&& 16) ^^^ (y &&& 16) ≠ 0 then 0x00 else 0xff; ((col, col, col) : Colour)) =
      square x.toNat y.toNat := by
  have hbit (z : ℕ) : z &&& 16 = (z.testBit 4).toNat * 16 := Nat.and_two_pow z 4
  have htest (z : ℕ) : z.testBit 4 = decide (z / 16 % 2 = 1) := Nat.testBit_eq_decide_div_mod_eq
  have hne : (x &&& 16) ^^^ (y &&& 16) ≠ 0 ↔ (x.toNat / 16 + y.toNat / 16) % 2 ≠ 0 := by
    have h₁₆ : (16 : UInt32).toNat = 16 := rfl
    have h₀ : (0 : UInt32).toNat = 0 := rfl
    rw [Ne, ← UInt32.toNat_inj, UInt32.toNat_xor, UInt32.toNat_and, UInt32.toNat_and, h₁₆, h₀, hbit, hbit, htest, htest]
    by_cases hx : x.toNat / 16 % 2 = 1 <;> by_cases hy : y.toNat / 16 % 2 = 1 <;> simp [hx, hy] <;> omega
  rw [square]
  by_cases h : (x.toNat / 16 + y.toNat / 16) % 2 = 0
  · rw [if_pos h, if_neg fun he ↦ hne.mp he h]
  · rw [if_neg h, if_pos (hne.mpr h)]

namespace FB

/-- No byte belongs to two pixels. -/
theorem Consistent.byte_inj (h : fb.Consistent) (hx : x < fb.width) (hy : y < fb.height) (hx' : x' < fb.width)
    (hy' : y' < fb.height) (hi : i.toNat < 4) (hj : j.toNat < 4) (he : fb.address x y + i = fb.address x' y' + j) :
    x = x' ∧ y = y' ∧ i = j := by
  have hpitch := h.pitch
  have hw := UInt32.lt_iff_toNat_lt.mp hx
  have hw' := UInt32.lt_iff_toNat_lt.mp hx'
  have hsum : x.toNat * 4 + i.toNat + y.toNat * fb.pitch.toNat = x'.toNat * 4 + j.toNat + y'.toNat * fb.pitch.toNat := by
    have := congrArg UInt32.toNat he
    rw [(h.toNat_byte hx hy hi).1, (h.toNat_byte hx' hy' hj).1] at this
    omega
  have hrow (r z : ℕ) (hr : r < fb.pitch.toNat) : (r + z * fb.pitch.toNat) / fb.pitch.toNat = z := by
    rw [Nat.add_mul_div_right _ _ (by omega), Nat.div_eq_of_lt hr, Nat.zero_add]
  have hyy : y.toNat = y'.toNat := by
    rw [← hrow (x.toNat * 4 + i.toNat) y.toNat (by omega), hsum, hrow _ _ (by omega)]
  rw [hyy] at hsum
  refine ⟨UInt32.toNat_inj.mp ?_, UInt32.toNat_inj.mp hyy, UInt32.toNat_inj.mp ?_⟩ <;> omega

theorem stores_eq (fb : FB) (p : Pixel) : fb.stores p = [(fb.address p.x p.y + 0, p.red),
    (fb.address p.x p.y + 1, p.green), (fb.address p.x p.y + 2, p.blue)] := by
  rw [stores, UInt32.add_zero]

/-- No colour is stored to the last byte of a pixel. -/
theorem Consistent.stores_ne (h : fb.Consistent) (hpx : p.x < fb.width) (hpy : p.y < fb.height) (hx : x < fb.width)
    (hy : y < fb.height) : ∀ s ∈ fb.stores p, s.1 ≠ fb.address x y + 3 := by
  have hne (i : UInt32) (hi : i.toNat < 4) (h₃ : i ≠ 3) : fb.address p.x p.y + i ≠ fb.address x y + 3 :=
    fun he ↦ h₃ (h.byte_inj hpx hpy hx hy hi (by decide) he).2.2
  rw [stores_eq]
  exact forall_mem_cons.mpr ⟨hne 0 (by decide) (by decide), forall_mem_cons.mpr ⟨hne 1 (by decide) (by decide),
    forall_mem_singleton.mpr (hne 2 (by decide) (by decide))⟩⟩

/-- To store a pixel is to draw it. -/
theorem Consistent.shows_stores (h : fb.Consistent) (hs : fb.Shows m pic) (hx : p.x < fb.width) (hy : p.y < fb.height) :
    fb.Shows (written m (fb.stores p)) (written pic [p.spot]) := by
  intro x y hx' hy'
  have hbyte (i j : UInt32) (hi : i.toNat < 4) (hj : j.toNat < 4) :
      fb.address x y + i = fb.address p.x p.y + j ↔ (x, y) = (p.x, p.y) ∧ i = j := by
    constructor
    · intro he
      obtain ⟨rfl, rfl, rfl⟩ := h.byte_inj hx' hy' hx hy hi hj he
      exact ⟨rfl, rfl⟩
    · rintro ⟨he, rfl⟩
      obtain ⟨rfl, rfl⟩ := Prod.mk.inj he
      rfl
  obtain ⟨hr, hg, hb⟩ := hs x y hx' hy'
  simp only [written, stores_eq, foldl_cons, foldl_nil, update_apply, Pixel.spot, Pixel.colour]
  rw [hr, hg, hb]
  by_cases hxy : (x, y) = (p.x, p.y)
  · simp (disch := decide) only [hbyte, hxy]
    simp
  · simp (disch := decide) only [hbyte, hxy]
    simp

theorem Consistent.shows_pixels (h : fb.Consistent) (hs : fb.Shows m pic)
    (hps : ∀ p ∈ ps, p.x < fb.width ∧ p.y < fb.height) :
    fb.Shows (written m (ps.flatMap fb.stores)) (written pic (ps.map Pixel.spot)) := by
  induction ps generalizing m pic with
  | nil => exact hs
  | cons p ps ih =>
    obtain ⟨hx, hy⟩ := hps p mem_cons_self
    rw [flatMap_cons, written_append, map_cons, ← singleton_append, written_append]
    exact ih (h.shows_stores hs hx hy) fun q hq ↦ hps q (mem_cons_of_mem p hq)

theorem chessboard_colour (hc : fb.chessboard n = some ps) : ∀ p ∈ ps, p.colour = square p.x.toNat p.y.toNat := by
  obtain ⟨ys, -, hc⟩ := Option.bind_eq_some_iff.mp hc
  obtain ⟨xs, -, hc⟩ := Option.bind_eq_some_iff.mp hc
  cases hc
  intro p hp
  obtain ⟨y, -, hp⟩ := mem_flatMap.mp hp
  obtain ⟨x, -, rfl⟩ := mem_map.mp hp
  exact square_eq x y

theorem chessboard_covers (hc : fb.chessboard n = some ps) (hx : x < fb.width) (hy : y < fb.height) :
    ∃ p ∈ ps, p.x = x ∧ p.y = y := by
  obtain ⟨ys, hys, hc⟩ := Option.bind_eq_some_iff.mp hc
  obtain ⟨xs, hxs, hc⟩ := Option.bind_eq_some_iff.mp hc
  cases hc
  have h₁ : (1 : UInt32).toNat = 1 := rfl
  have h₀ : (0 : UInt32).toNat = 0 := rfl
  have hmem {stop z : UInt32} {zs : List UInt32} (hzs : counts 1 stop n 0 = some zs) (hz : z < stop) : z ∈ zs := by
    have hlt := UInt32.lt_iff_toNat_lt.mp hz
    have := mem_counts (c := z.toNat) hzs (by rw [h₀, h₁]; omega)
    rwa [h₀, h₁, Nat.zero_add, Nat.mul_one, UInt32.ofNat_toNat] at this
  exact ⟨_, mem_flatMap.mpr ⟨y, hmem hys hy, mem_map_of_mem (hmem hxs hx)⟩, rfl, rfl⟩

/-- A pixel of the fades at the top and the bottom. -/
theorem fadesAcross_colour (hh : 272 ≤ fb.height.toNat) (hp : p ∈ fb.fadesAcross) :
    16 ≤ p.x.toNat ∧ p.x.toNat < 272 ∧ (p.y.toNat < 16 ∧ p.colour = (.ofNat (p.x.toNat - 16), 0, 0) ∨
      fb.height.toNat ≤ p.y.toNat + 16 ∧ p.colour = (0, 0, .ofNat (p.x.toNat - 16))) := by
  obtain ⟨y, hy, hp⟩ := mem_flatMap.mp hp
  obtain ⟨x, hx, hp⟩ := mem_flatMap.mp hp
  have hy' := mem_range.mp hy
  obtain ⟨hlo, hhi⟩ := mem_range'_1.mp hx
  have hxn : (UInt32.ofNat x).toNat = x := UInt32.toNat_ofNat_of_lt' (by unfold UInt32.size; omega)
  have hyn : (UInt32.ofNat y).toNat = y := UInt32.toNat_ofNat_of_lt' (by unfold UInt32.size; omega)
  have hopp := toNat_opposite (m := fb.height) (k := y) (by omega)
  simp only [mem_cons, not_mem_nil, or_false] at hp
  rcases hp with rfl | rfl
  · dsimp only [Pixel.colour]
    rw [hxn, hyn]
    exact ⟨hlo, hhi, .inl ⟨hy', rfl⟩⟩
  · dsimp only [Pixel.colour]
    rw [hxn, hopp]
    exact ⟨hlo, hhi, .inr ⟨by omega, rfl⟩⟩

theorem fadesAcross_covers (hh : 272 ≤ fb.height.toNat) (hy : y < fb.height) (hlo : 16 ≤ x.toNat) (hhi : x.toNat < 272)
    (hedge : y.toNat < 16 ∨ fb.height.toNat ≤ y.toNat + 16) : ∃ p ∈ fb.fadesAcross, p.x = x ∧ p.y = y := by
  have hlt := UInt32.lt_iff_toNat_lt.mp hy
  have hx : x.toNat ∈ range' 16 256 := mem_range'_1.mpr ⟨hlo, hhi⟩
  rcases hedge with hedge | hedge
  · exact ⟨_, mem_flatMap.mpr ⟨y.toNat, mem_range.mpr hedge, mem_flatMap.mpr ⟨_, hx, mem_cons_self⟩⟩,
      UInt32.ofNat_toNat, UInt32.ofNat_toNat⟩
  · refine ⟨_, mem_flatMap.mpr ⟨fb.height.toNat - y.toNat - 1, mem_range.mpr (by omega), mem_flatMap.mpr
      ⟨_, hx, mem_cons_of_mem _ mem_cons_self⟩⟩, UInt32.ofNat_toNat, UInt32.toNat_inj.mp ?_⟩
    rw [toNat_opposite (by omega)]
    omega

/-- A pixel of the fades at the left and the right. -/
theorem fadesDown_colour (hw : 272 ≤ fb.width.toNat) (hp : p ∈ fb.fadesDown) :
    16 ≤ p.y.toNat ∧ p.y.toNat < 272 ∧ (p.x.toNat < 16 ∧ p.colour = (0, .ofNat (p.y.toNat - 16), 0) ∨
      fb.width.toNat ≤ p.x.toNat + 16 ∧
        p.colour = (.ofNat (p.y.toNat - 16), .ofNat (p.y.toNat - 16), .ofNat (p.y.toNat - 16))) := by
  obtain ⟨y, hy, hp⟩ := mem_flatMap.mp hp
  obtain ⟨x, hx, hp⟩ := mem_flatMap.mp hp
  have hx' := mem_range.mp hx
  obtain ⟨hlo, hhi⟩ := mem_range'_1.mp hy
  have hxn : (UInt32.ofNat x).toNat = x := UInt32.toNat_ofNat_of_lt' (by unfold UInt32.size; omega)
  have hyn : (UInt32.ofNat y).toNat = y := UInt32.toNat_ofNat_of_lt' (by unfold UInt32.size; omega)
  have hopp := toNat_opposite (m := fb.width) (k := x) (by omega)
  simp only [mem_cons, not_mem_nil, or_false] at hp
  rcases hp with rfl | rfl
  · dsimp only [Pixel.colour]
    rw [hxn, hyn]
    exact ⟨hlo, hhi, .inl ⟨hx', rfl⟩⟩
  · dsimp only [Pixel.colour]
    rw [hyn, hopp]
    exact ⟨hlo, hhi, .inr ⟨by omega, rfl⟩⟩

theorem fadesDown_covers (hw : 272 ≤ fb.width.toNat) (hx : x < fb.width) (hlo : 16 ≤ y.toNat) (hhi : y.toNat < 272)
    (hedge : x.toNat < 16 ∨ fb.width.toNat ≤ x.toNat + 16) : ∃ p ∈ fb.fadesDown, p.x = x ∧ p.y = y := by
  have hlt := UInt32.lt_iff_toNat_lt.mp hx
  have hy : y.toNat ∈ range' 16 256 := mem_range'_1.mpr ⟨hlo, hhi⟩
  rcases hedge with hedge | hedge
  · exact ⟨_, mem_flatMap.mpr ⟨_, hy, mem_flatMap.mpr ⟨x.toNat, mem_range.mpr hedge, mem_cons_self⟩⟩,
      UInt32.ofNat_toNat, UInt32.ofNat_toNat⟩
  · refine ⟨_, mem_flatMap.mpr ⟨_, hy, mem_flatMap.mpr ⟨fb.width.toNat - x.toNat - 1, mem_range.mpr (by omega),
      mem_cons_of_mem _ mem_cons_self⟩⟩, UInt32.toNat_inj.mp ?_, UInt32.ofNat_toNat⟩
    rw [toNat_opposite (by omega)]
    omega

theorem written_pixels (hw : 272 ≤ fb.width.toNat) (hh : 272 ≤ fb.height.toNat) (hp : fb.pixels n = some ps)
    (hx : x < fb.width) (hy : y < fb.height) : written pic (ps.map Pixel.spot) (x, y) = fb.picture x.toNat y.toNat := by
  obtain ⟨cs, hc, rfl⟩ := Option.map_eq_some_iff.mp hp
  have hxn := UInt32.lt_iff_toNat_lt.mp hx
  have hyn := UInt32.lt_iff_toNat_lt.mp hy
  have hdown (hd : ¬(16 ≤ y.toNat ∧ y.toNat < 272 ∧ (x.toNat < 16 ∨ fb.width.toNat ≤ x.toNat + 16))) (pic) :
      written pic (fb.fadesDown.map Pixel.spot) (x, y) = pic (x, y) := by
    apply written_spot_of_notMem
    rintro p hp rfl rfl
    obtain ⟨h₁, h₂, h₃⟩ := fadesDown_colour hw hp
    exact hd ⟨h₁, h₂, h₃.imp And.left And.left⟩
  have hacross (ha : ¬(16 ≤ x.toNat ∧ x.toNat < 272 ∧ (y.toNat < 16 ∨ fb.height.toNat ≤ y.toNat + 16))) (pic) :
      written pic (fb.fadesAcross.map Pixel.spot) (x, y) = pic (x, y) := by
    apply written_spot_of_notMem
    rintro p hp rfl rfl
    obtain ⟨h₁, h₂, h₃⟩ := fadesAcross_colour hh hp
    exact ha ⟨h₁, h₂, h₃.imp And.left And.left⟩
  rw [map_append, map_append, written_append, written_append, picture]
  split_ifs with hright hleft hbottom htop
  · refine written_spot (fun p hp hpx hpy ↦ ?_) (fadesDown_covers hw hx hright.1 hright.2.1 (.inr hright.2.2))
    subst hpx hpy
    obtain ⟨-, -, ⟨hlt, -⟩ | ⟨-, hcol⟩⟩ := fadesDown_colour hw hp
    · omega
    · exact hcol
  · refine written_spot (fun p hp hpx hpy ↦ ?_) (fadesDown_covers hw hx hleft.1 hleft.2.1 (.inl hleft.2.2))
    subst hpx hpy
    obtain ⟨-, -, ⟨-, hcol⟩ | ⟨hle, -⟩⟩ := fadesDown_colour hw hp
    · exact hcol
    · omega
  · rw [hdown (by omega)]
    refine written_spot (fun p hp hpx hpy ↦ ?_) (fadesAcross_covers hh hy hbottom.1 hbottom.2.1 (.inr hbottom.2.2))
    subst hpx hpy
    obtain ⟨-, -, ⟨hlt, -⟩ | ⟨-, hcol⟩⟩ := fadesAcross_colour hh hp
    · omega
    · exact hcol
  · rw [hdown (by omega)]
    refine written_spot (fun p hp hpx hpy ↦ ?_) (fadesAcross_covers hh hy htop.1 htop.2.1 (.inl htop.2.2))
    subst hpx hpy
    obtain ⟨-, -, ⟨-, hcol⟩ | ⟨hle, -⟩⟩ := fadesAcross_colour hh hp
    · exact hcol
    · omega
  · rw [hdown (by omega), hacross (by omega)]
    refine written_spot (fun p hp hpx hpy ↦ ?_) (chessboard_covers hc hx hy)
    subst hpx hpy
    exact chessboard_colour hc p hp

/-- The fill sets the last byte of every pixel, if the rows begin at multiples of four. -/
theorem Consistent.alphaFill_pixel (h : fb.Consistent) (hd : 4 ∣ fb.pitch.toNat) {ss : List Store}
    (hs : fb.alphaFill n = some ss) (hx : x < fb.width) (hy : y < fb.height) (m : UInt32 → UInt8) :
    written m ss (fb.address x y + 3) = 0xff := by
  obtain ⟨ns, hns, rfl⟩ := Option.map_eq_some_iff.mp hs
  have h₃ : (3 : UInt32).toNat = 3 := rfl
  have h₄ : (4 : UInt32).toNat = 4 := rfl
  obtain ⟨hbyte, hsize⟩ := h.toNat_byte hx hy (by decide : (3 : UInt32).toNat < 4)
  obtain ⟨d, hd⟩ := hd.mul_left y.toNat
  rw [hd, h₃] at hbyte hsize
  have hk := mem_counts (c := x.toNat + d) hns (by rw [h₃, h₄]; omega)
  apply written_of_agree
  · intro w hw _
    obtain ⟨k, -, rfl⟩ := mem_map.mp hw
    rfl
  · refine ⟨_, mem_map_of_mem hk, UInt32.toNat_inj.mp ?_⟩
    have hlt := fb.size.toNat_lt
    have htop := h.top
    rw [h₃, h₄, UInt32.toNat_add, UInt32.toNat_ofNat_of_lt' (by unfold UInt32.size; omega), hbyte]
    omega

/-- On every display that has room for the fades, the memory shows the picture
in the end, and no byte outside of the framebuffer is changed. All pixels are
opaque if the rows begin at multiples of four. -/
theorem draws_picture (h : fb.Consistent) (hw : 272 ≤ fb.width.toNat) (hh : 272 ≤ fb.height.toNat) (m : UInt32 → UInt8) :
    ∃ r, (∃ N, ∀ n, N ≤ n → fb.draw n = some r) ∧
      fb.Shows (written m r.1) (fun k ↦ fb.picture k.1.toNat k.2.toNat) ∧
      (4 ∣ fb.pitch.toNat → ∀ x y, x < fb.width → y < fb.height → written m r.1 (fb.address x y + 3) = 0xff) ∧
      ∀ a, ¬fb.Owns a → written m r.1 a = m a := by
  obtain ⟨r, N, hN⟩ := fb.draw_ends
  obtain ⟨ss, hs, hr⟩ := Option.bind_eq_some_iff.mp (hN N le_rfl)
  obtain ⟨ps, hp, hr⟩ := Option.bind_eq_some_iff.mp hr
  cases hr
  have hlt := pixels_lt hw hh hp
  refine ⟨_, ⟨N, hN⟩, fun x y hx hy ↦ ?_, fun hd x y hx hy ↦ ?_, fun a ha ↦ ?_⟩
  · have hfill : fb.Shows (written m ss) fun k ↦ (written m ss (fb.address k.1 k.2 + 0),
        written m ss (fb.address k.1 k.2 + 1), written m ss (fb.address k.1 k.2 + 2)) := fun _ _ _ _ ↦ ⟨rfl, rfl, rfl⟩
    have hshows := h.shows_pixels hfill hlt x y hx hy
    rwa [written_pixels hw hh hp hx hy, ← written_append] at hshows
  · rw [written_append, written_of_notMem, h.alphaFill_pixel hd hs hx hy]
    intro w hw' he
    obtain ⟨p, hp', hw'⟩ := mem_flatMap.mp hw'
    exact h.stores_ne (hlt p hp').1 (hlt p hp').2 hx hy w hw' he
  · apply written_of_notMem
    rintro w hw' rfl
    rcases mem_append.mp hw' with hw' | hw'
    · exact ha (h.owns_alpha hs w hw')
    · obtain ⟨p, hp', hw'⟩ := mem_flatMap.mp hw'
      exact ha (h.owns_stores (hlt p hp').1 (hlt p hp').2 w hw')

theorem draws_picture_full : ∃ r, (∃ N, ∀ n, N ≤ n → FB.draw ⟨0xDE000000, 1228800, 2560, 640, 480⟩ n = some r) ∧
    FB.Shows ⟨0xDE000000, 1228800, 2560, 640, 480⟩ (written (fun _ ↦ 0) r.1)
      (fun k ↦ FB.picture ⟨0xDE000000, 1228800, 2560, 640, 480⟩ k.1.toNat k.2.toNat) ∧
    ∀ x y, x < 640 → y < 480 →
      written (fun _ ↦ 0) r.1 (FB.address ⟨0xDE000000, 1228800, 2560, 640, 480⟩ x y + 3) = 0xff := by
  obtain ⟨r, hr, hshows, halpha, -⟩ := @draws_picture ⟨0xDE000000, 1228800, 2560, 640, 480⟩
    ⟨by decide, by decide, by decide, by decide, by decide⟩ (by decide) (by decide) fun _ ↦ 0
  exact ⟨r, hr, hshows, halpha (by decide)⟩

end FB

end OcamlRpi.Framebuffer
