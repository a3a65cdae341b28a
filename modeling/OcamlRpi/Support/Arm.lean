import Mathlib.Algebra.Ring.Nat
import OcamlRpi.Support.Memory

namespace OcamlRpi.Support

open Function List

variable {ι β : Type*} [DecidableEq ι]

/-- The function with the values `vs` for the arguments `is`. -/
def assign (f : ι → β) : List ι → List β → ι → β
  | i :: is, v :: vs => assign (update f i v) is vs
  | _, _ => f

theorem assign_map (f g : ι → β) (is : List ι) (i : ι) :
    assign f is (is.map g) i = if i ∈ is then g i else f i := by
  induction is generalizing f with
  | nil => rfl
  | cons j is ih =>
    rw [map_cons, assign, ih]
    by_cases hi : i ∈ is
    · rw [if_pos hi, if_pos (mem_cons_of_mem j hi)]
    · rw [if_neg hi]
      by_cases hij : i = j
      · rw [hij, update_self, if_pos mem_cons_self]
      · rw [update_of_ne hij, if_neg (not_mem_cons_of_ne_of_not_mem hij hi)]

namespace Mem

def word (m : Mem) (a : BitVec 32) : BitVec 32 := .ofNat 32 (m.load a.toNat)

def setWord (m : Mem) (a v : BitVec 32) : Mem := m.store a.toNat v.toNat

/-- The `n` words from the address `a` on. -/
def loadWords (m : Mem) (a : BitVec 32) : ℕ → List (BitVec 32)
  | 0 => []
  | n + 1 => m.word a :: m.loadWords (a + 4) n

def storeWords (m : Mem) (a : BitVec 32) : List (BitVec 32) → Mem
  | [] => m
  | w :: ws => (m.setWord a w).storeWords (a + 4) ws

/-- Push a word to a stack that grows down. -/
def pushWord (f : Mem × BitVec 32) (w : BitVec 32) : Mem × BitVec 32 :=
  (f.1.setWord (f.2 - 4) w, f.2 - 4)

variable {m m' : Mem} {a v : BitVec 32} {ws : List (BitVec 32)} {n k x : ℕ}

theorem setWord_of_apart (h : x < a.toNat ∨ a.toNat + 4 ≤ x) : m.setWord a v x = m x :=
  store_of_apart h

theorem word_congr (h : ∀ x, a.toNat ≤ x → x < a.toNat + 4 → m' x = m x) : m'.word a = m.word a := by
  rw [word, word, load_congr h]

theorem word_setWord (m : Mem) (a v : BitVec 32) : (m.setWord a v).word a = v := by
  rw [word, setWord, load_store_self v.isLt, BitVec.ofNat_toNat, BitVec.setWidth_eq]

theorem length_loadWords (m : Mem) (a : BitVec 32) (n : ℕ) : (m.loadWords a n).length = n := by
  induction n generalizing a with
  | zero => rfl
  | succ n ih => rw [loadWords, length_cons, ih]

theorem loadWords_add (m : Mem) (a : BitVec 32) (n k : ℕ) :
    m.loadWords a (n + k) = m.loadWords a n ++ m.loadWords (a + .ofNat 32 (4 * n)) k := by
  induction n generalizing a with
  | zero => simp [loadWords]
  | succ n ih =>
    have ha : a + 4 + .ofNat 32 (4 * n) = a + .ofNat 32 (4 * (n + 1)) := by bv_omega
    have hn : n + 1 + k = n + k + 1 := by omega
    rw [hn, loadWords, loadWords, ih, ha, cons_append]

theorem loadWords_congr (hn : a.toNat + 4 * n ≤ 2 ^ 32)
    (h : ∀ x, a.toNat ≤ x → x < a.toNat + 4 * n → m' x = m x) : m'.loadWords a n = m.loadWords a n := by
  induction n generalizing a with
  | zero => rfl
  | succ n ih =>
    rw [loadWords, loadWords, word_congr fun x hx hx' ↦ h x hx (by omega)]
    cases n with
    | zero => rfl
    | succ n =>
      have ha : (a + 4).toNat = a.toNat + 4 := by bv_omega
      rw [ih (by omega) fun x hx hx' ↦ h x (by omega) (by omega)]

theorem storeWords_of_apart (hn : a.toNat + 4 * ws.length ≤ 2 ^ 32)
    (h : x < a.toNat ∨ a.toNat + 4 * ws.length ≤ x) : m.storeWords a ws x = m x := by
  induction ws generalizing m a with
  | nil => rfl
  | cons w ws ih =>
    rw [length_cons] at hn h
    rw [storeWords]
    cases ws with
    | nil => exact setWord_of_apart (by rw [length_nil] at h; omega)
    | cons w' ws =>
      rw [length_cons] at hn h ih
      have ha : (a + 4).toNat = a.toNat + 4 := by bv_omega
      rw [ih (by omega) (by omega), setWord_of_apart (by omega)]

theorem loadWords_storeWords (hn : a.toNat + 4 * ws.length ≤ 2 ^ 32) :
    (m.storeWords a ws).loadWords a ws.length = ws := by
  induction ws generalizing m a with
  | nil => rfl
  | cons w ws ih =>
    rw [length_cons] at hn ⊢
    rw [storeWords, loadWords]
    cases ws with
    | nil =>
      rw [storeWords, word_setWord]
      rfl
    | cons w' ws =>
      rw [length_cons] at hn
      have ha : (a + 4).toNat = a.toNat + 4 := by bv_omega
      rw [ih (by rw [length_cons]; omega), word_congr (m := m.setWord a w) fun x hx hx' ↦
        storeWords_of_apart (by rw [length_cons]; omega) (by omega), word_setWord]

theorem storeWords_zero (hn : a.toNat + 4 * n ≤ 2 ^ 32) (hx : a.toNat ≤ x) (hx' : x < a.toNat + 4 * n) :
    m.storeWords a (replicate n 0) x = 0 := by
  induction n generalizing m a with
  | zero => omega
  | succ n ih =>
    rw [replicate_succ, storeWords]
    by_cases hw : x < a.toNat + 4
    · have hzero : m.setWord a 0 x = 0 := by
        simp only [setWord, store]
        split_ifs <;> first | rfl | omega
      cases n with
      | zero => exact hzero
      | succ n =>
        have ha : (a + 4).toNat = a.toNat + 4 := by bv_omega
        rw [storeWords_of_apart (by rw [length_replicate]; omega) (.inl (by omega)), hzero]
    · have ha : (a + 4).toNat = a.toNat + 4 := by bv_omega
      exact ih (by omega) (by omega) (by omega)

theorem storeWords_append (m : Mem) (a : BitVec 32) (ws vs : List (BitVec 32)) :
    m.storeWords a (ws ++ vs) = (m.storeWords a ws).storeWords (a + .ofNat 32 (4 * ws.length)) vs := by
  induction ws generalizing m a with
  | nil => simp [storeWords]
  | cons w ws ih =>
    have ha : a + 4 + .ofNat 32 (4 * ws.length) = a + .ofNat 32 (4 * (ws.length + 1)) := by bv_omega
    rw [cons_append, storeWords, ih, ha]
    rfl

theorem getElem?_loadWords (m : Mem) (a : BitVec 32) (h : k < n) :
    (m.loadWords a n)[k]? = some (m.word (a + .ofNat 32 (4 * k))) := by
  obtain ⟨j, rfl⟩ := Nat.exists_eq_add_of_lt h
  rw [Nat.add_assoc, loadWords_add, getElem?_append_right (Nat.le_of_eq (length_loadWords m a k)), length_loadWords,
    Nat.sub_self]
  rfl

theorem word_storeWords (hn : a.toNat + 4 * ws.length ≤ 2 ^ 32) (hk : k < ws.length) :
    ws[k]? = some ((m.storeWords a ws).word (a + .ofNat 32 (4 * k))) := by
  rw [← getElem?_loadWords _ a hk, loadWords_storeWords hn]

/-- The word pushed last is read first. -/
theorem pushWords_spec (m : Mem) (a : BitVec 32) (ws : List (BitVec 32))
    (hn : a.toNat + 4 * ws.length ≤ 2 ^ 32) :
    ∃ m', ws.foldl pushWord (m, a + .ofNat 32 (4 * ws.length)) = (m', a) ∧
      m'.loadWords a ws.length = ws.reverse ∧
        ∀ x, x < a.toNat ∨ a.toNat + 4 * ws.length ≤ x → m' x = m x := by
  induction ws generalizing m with
  | nil => exact ⟨m, by simp, rfl, fun _ _ ↦ rfl⟩
  | cons w ws ih =>
    rw [length_cons] at hn ⊢
    have htop : a + .ofNat 32 (4 * (ws.length + 1)) - 4 = a + .ofNat 32 (4 * ws.length) := by bv_omega
    have hat : (a + .ofNat 32 (4 * ws.length)).toNat = a.toNat + 4 * ws.length := by bv_omega
    obtain ⟨m', hrun, hload, hframe⟩ :=
      ih (m.setWord (a + .ofNat 32 (4 * ws.length)) w) (by omega)
    refine ⟨m', ?_, ?_, fun x hx ↦ ?_⟩
    · rw [foldl_cons, pushWord, htop, hrun]
    · have hw : m'.word (a + .ofNat 32 (4 * ws.length)) = w := by
        rw [word_congr fun x hx hx' ↦ hframe x (by omega), word_setWord]
      rw [loadWords_add, hload, reverse_cons, loadWords, loadWords, hw]
    · rw [hframe x (by omega), setWord_of_apart (by omega)]

end Mem

/-- The two words of each double word, the low one first. -/
def halves : List (BitVec 64) → List (BitVec 32)
  | [] => []
  | d :: ds => d.extractLsb' 0 32 :: d.extractLsb' 32 32 :: halves ds

def doubles : List (BitVec 32) → List (BitVec 64)
  | lo :: hi :: ws => (hi ++ lo) :: doubles ws
  | _ => []

theorem length_halves (ds : List (BitVec 64)) : (halves ds).length = 2 * ds.length := by
  induction ds with
  | nil => rfl
  | cons d ds ih =>
    rw [halves, length_cons, length_cons, length_cons, ih]
    omega

theorem doubles_halves (ds : List (BitVec 64)) : doubles (halves ds) = ds := by
  induction ds with
  | nil => rfl
  | cons d ds ih =>
    have hd : d.extractLsb' 32 32 ++ d.extractLsb' 0 32 = d := BitVec.extractLsb'_append_extractLsb'
    rw [halves, doubles, ih, hd]

namespace Arm

/-- The core registers but `pc`, in ascending order. -/
inductive Reg where
  | r0 | r1 | r2 | r3 | r4 | r5 | r6 | r7 | r8 | r9 | r10 | r11 | r12 | sp | lr
deriving DecidableEq

structure Cpu where
  r : Reg → BitVec 32
  d : Fin 32 → BitVec 64
  pc : BitVec 32
  mem : Mem

def Cpu.sp (c : Cpu) : BitVec 32 := c.r .sp

def Cpu.lr (c : Cpu) : BitVec 32 := c.r .lr

/-- Lists of registers are in ascending order. -/
inductive Instr where
  | push (is : List (Reg))
  | pop (is : List (Reg))
  | vpush (is : List (Fin 32))
  | vpop (is : List (Fin 32))
  | str (t n : Reg)
  | mov (t n : Reg)
  | bx (n : Reg)

/-- The lowest register is at the lowest address. -/
def Instr.exec (c : Cpu) : Instr → Cpu
  | .push is =>
    let a := c.sp - .ofNat 32 (4 * is.length)
    { c with r := update c.r .sp a, pc := c.pc + 4, mem := c.mem.storeWords a (is.map c.r) }
  | .pop is =>
    let r := assign c.r is (c.mem.loadWords c.sp is.length)
    { c with r := update r .sp (c.sp + .ofNat 32 (4 * is.length)), pc := c.pc + 4 }
  | .vpush is =>
    let a := c.sp - .ofNat 32 (8 * is.length)
    { c with r := update c.r .sp a, pc := c.pc + 4, mem := c.mem.storeWords a (halves (is.map c.d)) }
  | .vpop is =>
    let d := assign c.d is (doubles (c.mem.loadWords c.sp (2 * is.length)))
    { c with r := update c.r .sp (c.sp + .ofNat 32 (8 * is.length)), d := d, pc := c.pc + 4 }
  | .str t n => { c with pc := c.pc + 4, mem := c.mem.setWord (c.r n) (c.r t) }
  | .mov t n => { c with r := update c.r t (c.r n), pc := c.pc + 4 }
  | .bx n => { c with pc := c.r n }

/-- `bx` is the one jump. -/
def Instr.Straight : Instr → Prop
  | .bx _ => False
  | _ => True

def steps (code : BitVec 32 → Option Instr) : ℕ → Cpu → Option Cpu
  | 0, c => some c
  | n + 1, c => (code c.pc).bind fun i ↦ steps code n (i.exec c)

/-- The instructions `is` are at the address `a`. -/
def Loaded (code : BitVec 32 → Option Instr) : BitVec 32 → List Instr → Prop
  | _, [] => True
  | a, i :: is => code a = some i ∧ Loaded code (a + 4) is

/-- The code that has `is` at the address `a`, and nothing else. -/
def program (a : BitVec 32) (is : List Instr) (b : BitVec 32) : Option Instr :=
  if (b - a).toNat % 4 = 0 then is[(b - a).toNat / 4]? else none

variable {code : BitVec 32 → Option Instr} {a : BitVec 32} {c c' : Cpu} {i j : Instr}
  {is js : List Instr} {m n : ℕ}

theorem Instr.Straight.pc (h : i.Straight) (c : Cpu) : (i.exec c).pc = c.pc + 4 := by
  cases i with
  | bx n => exact absurd h id
  | _ => rfl

theorem steps_add (h : steps code m c = some c') : steps code (m + n) c = steps code n c' := by
  induction m generalizing c with
  | zero =>
    obtain rfl := Option.some.inj h
    rw [Nat.zero_add]
  | succ m ih =>
    have hm : m + 1 + n = m + n + 1 := by omega
    rw [steps] at h
    rw [hm, steps]
    cases hi : code c.pc with
    | none =>
      rw [hi] at h
      cases h
    | some i =>
      rw [hi, Option.bind_some] at h
      rw [Option.bind_some, ih h]

/-- Code without a jump before its end runs from there to its end. -/
theorem Loaded.steps (h : Loaded code c.pc (is ++ [j])) (hs : ∀ i ∈ is, i.Straight) :
    steps code (is.length + 1) c = some ((is ++ [j]).foldl Instr.exec c) := by
  induction is generalizing c with
  | nil =>
    rw [length_nil, nil_append, Arm.steps, h.1]
    rfl
  | cons i is ih =>
    have hpc : (i.exec c).pc = c.pc + 4 := (hs i mem_cons_self).pc c
    rw [cons_append] at h ⊢
    rw [length_cons, Arm.steps, h.1, Option.bind_some, foldl_cons]
    exact ih (hpc ▸ h.2) fun k hk ↦ hs k (mem_cons_of_mem i hk)

theorem Loaded.left (h : Loaded code a (is ++ js)) : Loaded code a is := by
  induction is generalizing a with
  | nil => trivial
  | cons i is ih => exact ⟨h.1, ih h.2⟩

theorem loaded_program (a : BitVec 32) (is js : List Instr)
    (h : 4 * (is.length + js.length) ≤ 2 ^ 32) :
    Loaded (program a (is ++ js)) (a + .ofNat 32 (4 * is.length)) js := by
  induction js generalizing is with
  | nil => trivial
  | cons j js ih =>
    rw [length_cons] at h
    have hsub : (a + .ofNat 32 (4 * is.length) - a).toNat = 4 * is.length := by bv_omega
    have hnext : a + .ofNat 32 (4 * is.length) + 4 = a + .ofNat 32 (4 * (is ++ [j]).length) := by
      rw [length_append, length_singleton]
      bv_omega
    have hrest := ih (is ++ [j]) (by rw [length_append, length_singleton]; omega)
    rw [append_assoc, singleton_append, ← hnext] at hrest
    refine ⟨?_, hrest⟩
    rw [program, hsub, if_pos (Nat.mul_mod_right 4 _), Nat.mul_div_cancel_left _ (by decide)]
    simp

end Arm

end OcamlRpi.Support
