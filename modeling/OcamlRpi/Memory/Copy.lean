import OcamlRpi.Memory.Chunk

namespace OcamlRpi.Memory

open Support Function List

/-- `while(n-- > 0) *d++ = *s++;` -/
def memcpy (m : Mem) (dest src : ℕ) : ℕ → Mem
  | 0 => m
  | n + 1 => memcpy (update m dest (m src)) (wrap (dest + 1)) (wrap (src + 1)) n

/-- `while(n-- > 0) *p++ = c;` -/
def memset (m : Mem) (s : ℕ) (c : UInt8) : ℕ → Mem
  | 0 => m
  | n + 1 => memset (update m s c) (wrap (s + 1)) c n

/-- The addresses that `memset` stores to, one after the other. -/
def memsetStores (s : ℕ) : ℕ → List ℕ
  | 0 => []
  | n + 1 => s :: memsetStores (wrap (s + 1)) n

/-- The result of `malloc` is used without a check for `NULL`. -/
def calloc (h : Heap) (nmemb size : ℕ) : Heap × ℕ :=
  let size := wrap (nmemb * size)
  let (h, res) := malloc h size
  ({ h with mem := memset h.mem res 0 size }, res)

def realloc (h : Heap) (ptr size : ℕ) : Heap × ℕ :=
  let chunk := sub32 ptr HEADER_SIZE
  let old := memoryChunkSize h.mem chunk
  if old ≥ size then (h, ptr)
  else
    let (h, res) := malloc h size
    let h := { h with mem := memcpy h.mem res ptr old }
    (free h ptr, res)

def payloadSize (m : Mem) (p : ℕ) : ℕ := memoryChunkSize m (sub32 p HEADER_SIZE)

theorem calloc_eq (h : Heap) (nmemb size : ℕ) : calloc h nmemb size =
    ({ (malloc h (wrap (nmemb * size))).1 with
        mem := memset (malloc h (wrap (nmemb * size))).1.mem (malloc h (wrap (nmemb * size))).2 0
          (wrap (nmemb * size)) },
      (malloc h (wrap (nmemb * size))).2) :=
  rfl

theorem realloc_fits {h : Heap} {p size : ℕ} (hle : size ≤ payloadSize h.mem p) :
    realloc h p size = (h, p) :=
  if_pos hle

theorem realloc_moves {h : Heap} {p size : ℕ} (hlt : payloadSize h.mem p < size) : realloc h p size =
    (free { (malloc h size).1 with
        mem := memcpy (malloc h size).1.mem (malloc h size).2 p (payloadSize h.mem p) } p,
      (malloc h size).2) :=
  if_neg (Nat.not_le.mpr hlt)

variable {m : Mem} {d s n x : ℕ} {c : UInt8}

theorem memset_stores (m : Mem) (s : ℕ) (c : UInt8) (n : ℕ) :
    memset m s c n = (memsetStores s n).foldl (fun m x ↦ update m x c) m := by
  induction n generalizing m s with
  | zero => rfl
  | succ n ih => exact ih _ _

/-- The pointer stays in the address space until the last byte was stored. -/
theorem wrap_succ (h : s + (n + 1) ≤ 2 ^ 32) (hn : 0 < n) : wrap (s + 1) = s + 1 :=
  Nat.mod_eq_of_lt (by omega)

theorem memset_apply (h : s + n ≤ 2 ^ 32) :
    memset m s c n x = if s ≤ x ∧ x < s + n then c else m x := by
  induction n generalizing m s with
  | zero =>
    rw [memset, if_neg]
    omega
  | succ n ih =>
    rw [memset]
    by_cases hx : x = s
    · subst hx
      rcases Nat.eq_zero_or_pos n with rfl | hn
      · rw [memset, if_pos (by omega), update_self]
      · rw [wrap_succ h hn, ih (by omega), if_neg (by omega), if_pos (by omega), update_self]
    · rcases Nat.eq_zero_or_pos n with rfl | hn
      · rw [memset, if_neg (by omega), update_of_ne hx]
      · rw [wrap_succ h hn, ih (by omega), update_of_ne hx]
        congr 1
        rw [eq_iff_iff]
        omega

/-- To a place in front of the source, or behind it, every byte is copied as it was. -/
theorem memcpy_apply (hd : d + n ≤ 2 ^ 32) (hs : s + n ≤ 2 ^ 32) (ha : d ≤ s ∨ s + n ≤ d) :
    memcpy m d s n x = if d ≤ x ∧ x < d + n then m (s + (x - d)) else m x := by
  induction n generalizing m d s with
  | zero =>
    rw [memcpy, if_neg]
    omega
  | succ n ih =>
    rw [memcpy]
    by_cases hx : x = d
    · subst hx
      have hself : update m x (m s) x = m (s + (x - x)) := by
        rw [update_self, Nat.sub_self, Nat.add_zero]
      rcases Nat.eq_zero_or_pos n with rfl | hn
      · rw [memcpy, if_pos (by omega), hself]
      · rw [wrap_succ hd hn, wrap_succ hs hn, ih (by omega) (by omega) (by omega), if_neg (by omega),
          if_pos (by omega), hself]
    · rcases Nat.eq_zero_or_pos n with rfl | hn
      · rw [memcpy, if_neg (by omega), update_of_ne hx]
      · rw [wrap_succ hd hn, wrap_succ hs hn, ih (by omega) (by omega) (by omega)]
        by_cases hin : d ≤ x ∧ x < d + (n + 1)
        · have hne : s + 1 + (x - (d + 1)) ≠ d := by omega
          have he : s + 1 + (x - (d + 1)) = s + (x - d) := by omega
          rw [if_pos (by omega), if_pos hin, update_of_ne hne, he]
        · rw [if_neg (by omega), if_neg hin, update_of_ne hx]

end OcamlRpi.Memory
