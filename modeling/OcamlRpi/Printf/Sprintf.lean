import OcamlRpi.Printf.Truncation
import OcamlRpi.Support.Memory

namespace OcamlRpi.Printf

open Support List

def BUF_SIZE : ℕ := 4096

/-- `sprintf`, which does not know how large the buffer is. -/
def sprintf (fuel str : ℕ) (fmt : List UInt8) (args : List Arg) : Option Result :=
  vsnprintf fuel str BUF_SIZE fmt args

/-- The peripherals are mapped from here on. -/
def RAM_END : ℕ := 0xE0000000

/-- The memory after a call that wrote `written`. -/
def patch (m : Mem) (written : ℕ → Option UInt8) : Mem := fun a ↦ (written a).getD (m a)

/-- A call of `sprintf` that writes `n` characters returns, and changes no byte
but these and the one behind them. -/
def Framed (m : Mem) (str : ℕ) (fmt : List UInt8) (args : List Arg) (n : ℕ) : Prop :=
  ∃ r, (∃ N, ∀ fuel, N ≤ fuel → sprintf fuel str fmt args = some r) ∧
    ∀ a, patch m r.written a ≠ m a → str ≤ a ∧ a ≤ str + n

variable {m : Mem} {fmt : List UInt8} {args rest : List Arg} {es : List Emission} {str a : ℕ}

/-- Behind the text and its end only the last byte of the buffer changes that
`sprintf` believes it has. -/
theorem sprintf_patch (m : Mem) (rest : List Arg) (hs : str + BUF_SIZE < 2 ^ 32)
    (hl : es.length < BUF_SIZE) (ha : a < str ∨ str + es.length < a) :
    patch m (finish str BUF_SIZE rest ((Out.start str BUF_SIZE).adds (chars es))).written a =
      if a = str + (BUF_SIZE - 1) then 0 else m a := by
  have hlen : (chars es).length = es.length := length_chars
  have hw : str + (chars es).length < 2 ^ 32 := by omega
  unfold patch
  rw [finish_written hs hw rest a, hlen]
  by_cases hlast : a = str + (BUF_SIZE - 1)
  · have hin : 0 < BUF_SIZE ∧ (a = str + BUF_SIZE - 1 ∨ a = str + es.length ∧ a < str + BUF_SIZE) := by
      omega
    rw [if_pos hin, if_pos hlast]
    rfl
  · have hin : ¬(0 < BUF_SIZE ∧ (a = str + BUF_SIZE - 1 ∨ a = str + es.length ∧ a < str + BUF_SIZE)) := by
      omega
    have hout : ¬(str ≤ a ∧ a < str + es.length ∧ a < str + BUF_SIZE) := by omega
    rw [if_neg hin, if_neg hout, if_neg hlast]
    rfl

/-- `sprintf` changes nothing but the text and the NUL behind it exactly if
the text is as long as its buffer allows, or the last byte of the buffer was
zero before: `vsnprintf` terminates the buffer there in any case. -/
theorem sprintf_frame_iff (ht : Text fmt 0 args es rest) (hl : es.length < BUF_SIZE)
    (hv : str + es.length < RAM_END) :
    Framed m str fmt args es.length ↔
      es.length = BUF_SIZE - 1 ∨ m (str + (BUF_SIZE - 1)) = 0 := by
  have hB : BUF_SIZE = 4096 := rfl
  have hE : RAM_END = 0xE0000000 := rfl
  have hs : str + BUF_SIZE < 2 ^ 32 := by omega
  have hret := ht.returns hs (fits_of_length_le (Nat.le_of_lt hl)) (by omega)
  have hpatch := fun a ↦ sprintf_patch (a := a) m rest hs hl
  constructor
  · intro hx
    obtain ⟨r, hr, hframe⟩ := hx
    obtain rfl := Returns.unique hr hret
    by_contra hne
    obtain ⟨hshort, hbyte⟩ := not_or.mp hne
    have hlast := hpatch (str + (BUF_SIZE - 1)) (by omega)
    rw [if_pos rfl] at hlast
    have hin := hframe (str + (BUF_SIZE - 1)) (by rw [hlast]; exact Ne.symm hbyte)
    omega
  · intro h
    refine ⟨_, hret, fun a ha ↦ ?_⟩
    by_contra hout
    have hp := hpatch a (by omega)
    apply ha
    rw [hp]
    split_ifs with hlast
    · have hbyte : m (str + (BUF_SIZE - 1)) = 0 := h.resolve_left (by omega)
      rw [hlast, hbyte]
    · rfl

theorem sprintf_frame_small : Framed (fun _ ↦ 0) 4096 [37, 100] [.int 123] 3 :=
  (sprintf_frame_iff text_number (by decide) (by decide)).mpr (.inr rfl)

/-- The three digits of 123 leave a zero 4092 bytes behind them. -/
theorem sprintf_frame_wrong : ¬ ∀ (m : Mem) (str : ℕ) (fmt : List UInt8) (args rest : List Arg)
    (es : List Emission), Text fmt 0 args es rest → es.length < BUF_SIZE →
    str + es.length < RAM_END → Framed m str fmt args es.length := by
  intro h
  have hf := h (fun _ ↦ 1) 4096 _ _ _ _ text_number (by decide) (by decide)
  have hbyte := (sprintf_frame_iff (m := fun _ ↦ 1) text_number (by decide) (by decide)).mp hf
  exact absurd hbyte (by decide)

end OcamlRpi.Printf
