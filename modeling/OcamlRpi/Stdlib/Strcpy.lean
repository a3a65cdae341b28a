import OcamlRpi.Stdlib.CString
import OcamlRpi.Support.Run

namespace OcamlRpi.Stdlib

open Support Function List
open Memory (wrap)
open Printf (byte)

/-- `while(*src) *p++ = *src++;` -/
def copyString : ℕ → Mem → ℕ → ℕ → Option Mem
  | 0, _, _, _ => none
  | n + 1, m, p, src =>
    if m src = 0 then some m else copyString n (update m p (m src)) (wrap (p + 1)) (wrap (src + 1))

/-- `while(*p++);` -/
def skipString : ℕ → Mem → ℕ → Option ℕ
  | 0, _, _ => none
  | n + 1, m, p => if m p = 0 then some (wrap (p + 1)) else skipString n m (wrap (p + 1))

/-- The memory after `strcpy`, and its result. -/
def strcpy (n : ℕ) (m : Mem) (dest src : ℕ) : Option (Mem × ℕ) :=
  (copyString n m dest src).map fun m ↦ (m, dest)

def strcat (n : ℕ) (m : Mem) (dest src : ℕ) : Option (Mem × ℕ) := do
  let p ← skipString n m dest
  let m ← copyString n m p src
  some (m, dest)

/-- The memory with the bytes `cs` at the address `p`. -/
def paste (m : Mem) (p : ℕ) (cs : List UInt8) : Mem :=
  fun x ↦ if p ≤ x ∧ x < p + cs.length then byte cs (x - p) else m x

/-- The string `cs` at `p` and its NUL do not overlap with `n` bytes at `q`. -/
def Apart (p : ℕ) (cs : List UInt8) (q n : ℕ) : Prop := p + cs.length < q ∨ q + n ≤ p

/-- `strcat` leaves the two strings at `dest`, and changes nothing but what comes
behind the first. -/
def Concatenates (m : Mem) (dest src : ℕ) (as bs : List UInt8) : Prop :=
  ∃ m', (∃ N, ∀ n, N ≤ n → strcat n m dest src = some (m', dest)) ∧ CString m' dest (as ++ bs) ∧
    ∀ x, m' x ≠ m x → dest + as.length ≤ x ∧ x ≤ dest + as.length + bs.length

/-- `strcpy` leaves the string at `dest`, and changes nothing but that. -/
def CopiesString (m : Mem) (dest src : ℕ) (cs : List UInt8) : Prop :=
  ∃ m', (∃ N, ∀ n, N ≤ n → strcpy n m dest src = some (m', dest)) ∧ CString m' dest cs ∧
    (∃ N, ∀ n, N ≤ n → strlen n m' dest = strlen n m src) ∧
      ∀ x, m' x ≠ m x → dest ≤ x ∧ x ≤ dest + cs.length

variable {m : Mem} {p q s d n x : ℕ} {c : UInt8} {as bs cs : List UInt8}

theorem paste_of_notMem (h : x < p ∨ p + cs.length ≤ x) : paste m p cs x = m x := if_neg (by omega)

theorem paste_nil (m : Mem) (p : ℕ) : paste m p [] = m :=
  funext fun x ↦ paste_of_notMem (by rw [length_nil]; omega)

theorem paste_cons (m : Mem) (p : ℕ) (c : UInt8) (cs : List UInt8) :
    paste m p (c :: cs) = paste (update m p c) (p + 1) cs := by
  funext x
  unfold paste
  rw [length_cons]
  by_cases hx : x = p
  · subst hx
    rw [if_pos (by omega), if_neg (by omega), update_self, Nat.sub_self]
    rfl
  · rw [update_of_ne hx]
    by_cases hin : p ≤ x ∧ x < p + (cs.length + 1)
    · have hsub : x - p = (x - (p + 1)) + 1 := by omega
      rw [if_pos hin, if_pos (by omega), hsub]
      rfl
    · rw [if_neg hin, if_neg (by omega)]

theorem copyString_eq (h : CString m s cs) (hs : s + cs.length < 2 ^ 32) (hp : p + cs.length ≤ 2 ^ 32)
    (ha : Apart s cs p cs.length) (hn : cs.length < n) : copyString n m p s = some (paste m p cs) := by
  induction cs generalizing m p s n with
  | nil =>
    obtain ⟨n, rfl⟩ : ∃ k, n = k + 1 := ⟨n - 1, by rw [length_nil] at hn; omega⟩
    rw [copyString, if_pos (cstring_nil.mp h), paste_nil]
  | cons c cs ih =>
    obtain ⟨hc, hne, hcs⟩ := cstring_cons.mp h
    unfold Apart at ha ih
    rw [length_cons] at hs hp ha hn
    obtain ⟨n, rfl⟩ : ∃ k, n = k + 1 := ⟨n - 1, by omega⟩
    have hkept : CString (update m p c) (s + 1) cs :=
      hcs.congr fun x hx hx' ↦ update_of_ne (by omega) c m
    rw [copyString, if_neg (by rwa [hc]), hc, wrap_of_lt (by omega : s + 1 < 2 ^ 32), paste_cons]
    cases cs with
    | nil =>
      -- the pointer may leave the address space behind the last byte
      obtain ⟨n, rfl⟩ : ∃ k, n = k + 1 := ⟨n - 1, by rw [length_nil] at hn; omega⟩
      rw [copyString, if_pos (cstring_nil.mp hkept), paste_nil]
    | cons d cs =>
      rw [length_cons] at *
      rw [wrap_of_lt (by omega : p + 1 < 2 ^ 32)]
      exact ih hkept (by omega) (by omega) (by omega) (by omega)

theorem skipString_eq (h : CString m p cs) (hp : p + cs.length < 2 ^ 32) (hn : cs.length < n) :
    skipString n m p = some (wrap (p + cs.length + 1)) := by
  induction cs generalizing p n with
  | nil =>
    obtain ⟨n, rfl⟩ : ∃ k, n = k + 1 := ⟨n - 1, by rw [length_nil] at hn; omega⟩
    exact if_pos (cstring_nil.mp h)
  | cons c cs ih =>
    obtain ⟨hc, hne, hcs⟩ := cstring_cons.mp h
    rw [length_cons] at hp hn ⊢
    obtain ⟨n, rfl⟩ : ∃ k, n = k + 1 := ⟨n - 1, by omega⟩
    have hlen : p + 1 + cs.length = p + (cs.length + 1) := by omega
    rw [skipString, if_neg (by rwa [hc]), wrap_of_lt (by omega), ih hcs (by omega) (by omega), hlen]

/-- `strcat` leaves the NUL of the first string where it is, and pastes the
second one behind it. -/
theorem strcat_eq (h₁ : CString m d as) (h₂ : CString m s bs) (hd : d + as.length + bs.length < 2 ^ 32)
    (hs : s + bs.length < 2 ^ 32) (ha : Apart s bs d (as.length + bs.length + 1)) :
    ∀ n, as.length + bs.length < n → strcat n m d s = some (paste m (d + as.length + 1) bs, d) := by
  intro n hn
  have hskip : skipString n m d = some (wrap (d + as.length + 1)) := skipString_eq h₁ (by omega) (by omega)
  rw [strcat, hskip, Option.bind_eq_bind, Option.bind_some]
  cases bs with
  | nil =>
    obtain ⟨n, rfl⟩ : ∃ k, n = k + 1 := ⟨n - 1, by omega⟩
    rw [copyString, if_pos (cstring_nil.mp h₂), paste_nil]
    rfl
  | cons b bs =>
    unfold Apart at ha
    rw [length_cons] at *
    have hcopy := copyString_eq (p := d + as.length + 1) (n := n) h₂ (by rwa [length_cons])
      (by rw [length_cons]; omega) (by unfold Apart; rw [length_cons]; omega) (by rw [length_cons]; omega)
    rw [wrap_of_lt (by omega), hcopy]
    rfl

theorem Concatenates.eq_nil (h : Concatenates m d s as bs) (h₁ : CString m d as) (h₂ : CString m s bs)
    (hd : d + as.length + bs.length < 2 ^ 32) (hs : s + bs.length < 2 ^ 32)
    (ha : Apart s bs d (as.length + bs.length + 1)) : bs = [] := by
  obtain ⟨m', hrun, hc, -⟩ := h
  obtain ⟨rfl, -⟩ := Prod.mk.inj (result_unique hrun ⟨as.length + bs.length + 1, strcat_eq h₁ h₂ hd hs ha⟩)
  have hold : CString (paste m (d + as.length + 1) bs) d as :=
    h₁.congr fun x hx hx' ↦ paste_of_notMem (.inl (by omega))
  exact List.self_eq_append_right.mp (hold.unique hc)

theorem strcat_concatenates_iff (h₁ : CString m d as) (h₂ : CString m s bs)
    (hd : d + as.length + bs.length < 2 ^ 32) (hs : s + bs.length < 2 ^ 32)
    (ha : Apart s bs d (as.length + bs.length + 1)) : Concatenates m d s as bs ↔ bs = [] := by
  refine ⟨fun h ↦ h.eq_nil h₁ h₂ hd hs ha, fun h ↦ ?_⟩
  subst h
  refine ⟨m, ⟨as.length + 1, fun n hn ↦ ?_⟩, by rwa [append_nil], fun x hx ↦ absurd rfl hx⟩
  rw [strcat_eq h₁ h₂ hd hs ha n (by rw [length_nil]; omega), paste_nil]

theorem strcat_concatenates_small : Concatenates (fun x ↦ if x = 4096 then 97 else 0) 4096 8192 [97] [] :=
  (strcat_concatenates_iff (cstring_cons.mpr ⟨rfl, by decide, cstring_nil.mpr rfl⟩) (cstring_nil.mpr rfl)
    (by decide) (by decide) (.inr (by decide))).mpr rfl

/-- `b` is appended to `a`, in zeroed memory even. -/
theorem strcat_concatenates_wrong : ¬ ∀ (m : Mem) (d s : ℕ) (as bs : List UInt8), CString m d as →
    CString m s bs → d + as.length + bs.length < 2 ^ 32 → s + bs.length < 2 ^ 32 →
      Apart s bs d (as.length + bs.length + 1) → Concatenates m d s as bs := by
  intro h
  have h₁ : CString (fun x ↦ if x = 4096 then 97 else if x = 8192 then 98 else 0) 4096 [97] :=
    cstring_cons.mpr ⟨rfl, by decide, cstring_nil.mpr rfl⟩
  have h₂ : CString (fun x ↦ if x = 4096 then 97 else if x = 8192 then 98 else 0) 8192 [98] :=
    cstring_cons.mpr ⟨rfl, by decide, cstring_nil.mpr rfl⟩
  have ha : Apart 8192 [98] 4096 3 := .inr (by decide)
  have hx := h _ _ _ _ _ h₁ h₂ (by decide) (by decide) ha
  exact absurd (hx.eq_nil h₁ h₂ (by decide) (by decide) ha) (by decide)

theorem strcpy_eq (h : CString m s cs) (hs : s + cs.length < 2 ^ 32) (hd : d + cs.length < 2 ^ 32)
    (ha : Apart s cs d (cs.length + 1)) : ∀ n, cs.length < n → strcpy n m d s = some (paste m d cs, d) := by
  intro n hn
  have hap : Apart s cs d cs.length := by
    unfold Apart at *
    omega
  rw [strcpy, copyString_eq h hs (by omega) hap hn, Option.map_some]

theorem CopiesString.zero (hx : CopiesString m d s cs) (h : CString m s cs) (hs : s + cs.length < 2 ^ 32)
    (hd : d + cs.length < 2 ^ 32) (ha : Apart s cs d (cs.length + 1)) : m (d + cs.length) = 0 := by
  obtain ⟨m', hrun, hc, -⟩ := hx
  obtain ⟨rfl, -⟩ := Prod.mk.inj (result_unique hrun ⟨cs.length + 1, strcpy_eq h hs hd ha⟩)
  have hend := hc.2
  rwa [paste_of_notMem (.inr le_rfl)] at hend

theorem cstring_paste (h : CString m s cs) (hend : m (d + cs.length) = 0) : CString (paste m d cs) d cs := by
  refine ⟨fun i hi ↦ ?_, ?_⟩
  · have hsub : d + i - d = i := by omega
    have hb : paste m d cs (d + i) = byte cs i := by
      unfold paste
      rw [if_pos (by omega), hsub]
    exact ⟨hb, (h.1 i hi).2⟩
  · rw [paste_of_notMem (.inr le_rfl), hend]

/-- `strcpy` is right exactly if the NUL is there already. -/
theorem strcpy_copies_iff (h : CString m s cs) (hs : s + cs.length < 2 ^ 32) (hd : d + cs.length < 2 ^ 32)
    (ha : Apart s cs d (cs.length + 1)) : CopiesString m d s cs ↔ m (d + cs.length) = 0 := by
  refine ⟨fun hx ↦ hx.zero h hs hd ha, fun hend ↦ ?_⟩
  have hc := cstring_paste h hend
  refine ⟨_, ⟨cs.length + 1, strcpy_eq h hs hd ha⟩, hc, ⟨cs.length + 1, fun n hn ↦ ?_⟩, fun x hx ↦ ?_⟩
  · rw [strlen_eq hc hd hn, strlen_eq h hs hn]
  · by_contra hout
    exact hx (paste_of_notMem (by omega))

/-- `a` copied to zeroed memory. -/
theorem strcpy_copies_small : CopiesString (fun x ↦ if x = 8192 then 97 else 0) 4096 8192 [97] :=
  (strcpy_copies_iff (cstring_cons.mpr ⟨rfl, by decide, cstring_nil.mpr rfl⟩) (by decide) (by decide)
    (.inr (by decide))).mpr rfl

/-- `a` copied over `xyz` leaves `ayz`. -/
theorem strcpy_copies_wrong : ¬ ∀ (m : Mem) (d s : ℕ) (cs : List UInt8), CString m s cs →
    s + cs.length < 2 ^ 32 → d + cs.length < 2 ^ 32 → Apart s cs d (cs.length + 1) →
      CopiesString m d s cs := by
  intro h
  let m : Mem := fun x ↦
    if x = 4096 then 120 else if x = 4097 then 121 else if x = 4098 then 122 else if x = 8192 then 97 else 0
  have hs : CString m 8192 [97] := cstring_cons.mpr ⟨rfl, by decide, cstring_nil.mpr rfl⟩
  have ha : Apart 8192 [97] 4096 2 := .inr (by decide)
  have hx := h m 4096 8192 [97] hs (by decide) (by decide) ha
  exact absurd (hx.zero hs (by decide) (by decide) ha) (by decide)

end OcamlRpi.Stdlib
