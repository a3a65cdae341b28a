import Mathlib.Data.List.TakeWhile
import OcamlRpi.Printf.Console
import OcamlRpi.Printf.Directive

set_option maxRecDepth 4096

namespace OcamlRpi.Printf

open Support List

/-- `0x` and the eight hexadecimal digits of a word. -/
def hexWord (v : BitVec 32) : List UInt8 := ascii "0x" ++ (places 16 8 v.toNat).map (digit false)

/-- The flags of `%#8.8x`. -/
def hexFlags : Flags := { Flags.empty with alternate := true, zeropad := true }

variable {fmt cs tail : List UInt8} {args rest : List Arg} {es : List Emission} {i buf : ℕ} {v : BitVec 32}

/-- The characters of a format up to a placeholder. -/
theorem Text.literals (hd : fmt.drop i = cs ++ tail) (hc : ∀ c ∈ cs, c ≠ 0 ∧ c ≠ '%'.toUInt8)
    (ht : Text fmt (i + cs.length) args es rest) : Text fmt i args (cs.map .plain ++ es) rest := by
  induction cs generalizing i with
  | nil => exact ht
  | cons c cs ih =>
    obtain ⟨hb, hdrop⟩ := byte_of_drop hd
    obtain ⟨h₀, hp⟩ := hc c mem_cons_self
    have hrest : Text fmt (i + 1) args (cs.map .plain ++ es) rest := by
      refine ih hdrop (fun d hd ↦ hc d (mem_cons_of_mem c hd)) ?_
      rwa [length_cons, Nat.add_comm cs.length, ← Nat.add_assoc] at ht
    have := Text.literal (hb ▸ h₀) (hb ▸ hp) hrest
    rwa [hb] at this

theorem chars_hexWord (v : BitVec 32) : chars (numberText (cast false 32 v) 16 8 8 hexFlags) = hexWord v := by
  have hlt : v.toNat < 16 ^ 8 := v.isLt
  have hcast : cast false 32 v = v.toNat := congrArg BitVec.toNat (BitVec.setWidth_eq v)
  have hlen := length_numeral_le (by decide) (by decide) hlt
  have hdigits : digitsText v.toNat 16 hexFlags = (numeral 16 v.toNat).map (digit false) := rfl
  have hfront : frontText v.toNat hexFlags = ascii "0x" := rfl
  have htwo : (ascii "0x").length = 2 := rfl
  have hzero : '0'.toUInt8 = digit false 0 := rfl
  have hleft : hexFlags.left = false := rfl
  have hbefore : blanksBefore v.toNat 16 8 8 hexFlags = 0 := by
    rw [blanksBefore, hleft, hfront, hdigits, length_map, htwo]
    simp
  have hafter : blanksAfter v.toNat 16 8 8 hexFlags = 0 := by
    rw [blanksAfter, leftover, hleft, hfront, hdigits, length_map, htwo, int_self]
    · simp
    · simp
      omega
    · simp
      omega
  have hzeros : ((8 : ℤ) - (digitsText v.toNat 16 hexFlags).length).toNat = 8 - (numeral 16 v.toNat).length := by
    rw [hdigits, length_map]
    omega
  rw [hcast, chars_number (by decide) (by decide) (by decide), hbefore, hafter, hzeros, hfront, hdigits, hexWord,
    ← replicate_numeral (by decide) (by decide) hlt, map_append, map_replicate]
  simp [padChar, hexFlags, hzero]

example : hexWord 0xC0008000 = ascii "0xc0008000" := by decide

/-- `%#8.8x` prints a word. -/
theorem Text.hexWord (hd : fmt.drop i = ascii "%#8.8x" ++ tail) (v : BitVec 32) (ht : Text fmt (i + 6) args es rest) :
    ∃ fs, Text fmt i (.int v :: args) (fs ++ es) rest ∧ chars fs = Printf.hexWord v := by
  have hf : ∀ c ∈ ascii "#", c ∈ FLAGS := by decide
  have hw : WidthText (ascii "8") [] 8 := .number (by decide) (by decide) (by decide)
  have hp : PrecisionText ('.'.toUInt8 :: ascii "8") [] (int (decimal 0 (ascii "8"))) := .number (by decide)
  have hx : 'x'.toUInt8 ∈ TYPES := by decide
  have hc : ascii "%#8.8x" = conversion (ascii "#") (ascii "8") ('.'.toUInt8 :: ascii "8") [] 'x'.toUInt8 := rfl
  have ha : convert (Flags.empty.add (ascii "#")) 8 8 4 (.int v :: args) 'x'.toUInt8 =
      some (.number (cast false 32 v) true 8 8 hexFlags, args) := rfl
  rw [hc] at hd
  rw [show int (decimal 0 (ascii "8")) = 8 from int_eq (by decide)] at hp
  exact ⟨_, .placeholder (byte_of_drop hd).1 (placeholder_conversion hf hw hp .none hx hd ha) rfl ht, chars_hexWord v⟩

/-- `%s` prints a string. -/
theorem Text.string (hd : fmt.drop i = ascii "%s" ++ tail) (hs : ∀ c ∈ cs, c ≠ 0) (ht : Text fmt (i + 2) args es rest) :
    Text fmt i (.str cs :: args) (cs.map .moves ++ es) rest := by
  have hw : WidthText [] [] 0 := .number (by decide) (by decide) (by decide)
  have hx : 's'.toUInt8 ∈ TYPES := by decide
  have hc : ascii "%s" = conversion [] [] [] [] 's'.toUInt8 := rfl
  have ha : convert (Flags.empty.add []) 0 (-1) 4 (.str cs :: args) 's'.toUInt8 = some (.string cs (-1), args) := rfl
  have htake : cs.takeWhile (· ≠ 0) = cs := takeWhile_eq_self_iff.mpr fun c hc ↦ decide_eq_true (hs c hc)
  have hstr : stringText cs (-1) = cs.map .moves := by rw [stringText, if_pos rfl, htake]
  rw [hc] at hd
  exact .placeholder (byte_of_drop hd).1 (placeholder_conversion (forall_mem_nil _) hw .none .none hx hd ha)
    (by rw [emits, hstr]; rfl) ht

theorem hexWord_length (v : BitVec 32) : (hexWord v).length = 10 := by
  simp [hexWord, places, ascii]

theorem hexWord_ne_zero (v : BitVec 32) : ∀ c ∈ hexWord v, c ≠ 0 := by
  have hfront : ∀ c ∈ ascii "0x", c ≠ 0 := by decide
  have hdigit : ∀ d < 16, digit false d ≠ 0 := by decide
  intro c hc
  rcases mem_append.mp hc with hc | hc
  · exact hfront c hc
  · obtain ⟨d, hd, rfl⟩ := mem_map.mp hc
    obtain ⟨i, -, rfl⟩ := mem_map.mp hd
    exact hdigit _ (Nat.mod_lt _ (by decide))

/-- A text that fits into the buffer of `printf` is sent as it is. -/
theorem printf_sends (ht : Text fmt 0 args es rest) (hne : ∀ c ∈ chars es, c ≠ 0) (hhi : buf + BUF_SIZE ≤ RAM_END)
    (hl : (chars es).length < BUF_SIZE) (m : Mem) :
    ∃ N, ∀ n, N ≤ n → printf n m buf fmt args = some (.returned (chars es) (chars es).length) := by
  rw [length_chars] at hl ⊢
  obtain ⟨N, hN⟩ := vprintf_short ht hne hhi hl.le [] m
  refine ⟨N, fun n hn ↦ ?_⟩
  rw [take_of_length_le (by rw [length_chars]; exact Nat.le_pred_of_lt hl)] at hN
  exact hN n hn

end OcamlRpi.Printf
