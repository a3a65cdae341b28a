import OcamlRpi.Entry.Vectors
import OcamlRpi.Printf.Hex

set_option maxRecDepth 4096

namespace OcamlRpi.Entry

open Support Armv6 Printf List

/-- The array `name`. -/
def names : List (List UInt8) :=
  ["R0 ", "R1 ", "R2 ", "R3 ", "R4 ", "R5 ", "R6 ", "R7 ", "R8 ", "R9 ", "R10", "R11", "R12", "SPu", "LRu", "IPu"].map ascii

/-- What a call has sent, if it returns. -/
def said : Outcome → Option (List UInt8)
  | .returned sent _ => some sent
  | .panicked _ => none

/-- What `printf` has sent, and the memory with its array at the address `buf`. -/
def prints (n : ℕ) (m : Support.Mem) (buf : ℕ) (fmt : List UInt8) (args : List Arg) :
    Option (List UInt8 × Support.Mem) := do
  let out ← printf n m buf fmt args
  let sent ← said out
  let r ← vsnprintf n buf BUF_SIZE fmt args
  some (sent, patch m r.written)

/-- The body of the loop of `dump`. -/
def dumpReg (n buf : ℕ) (regs : BitVec 32) (i : ℕ) (name : List UInt8) (m : Support.Mem) :
    Option (List UInt8 × Support.Mem) := do
  let (sent, m') ← prints n m buf (ascii "%s = %#8.8x    ") [.str name, .int (m.word (regs + .ofNat 32 (4 * i)))]
  some ((if i % 4 = 0 then ascii "\n" else []) ++ sent, m')

/-- The loop of `dump` from `i` on. -/
def dumpRegs (n buf : ℕ) (regs : BitVec 32) : ℕ → List (List UInt8) → Support.Mem → Option (List UInt8)
  | _, [], _ => some []
  | i, name :: names, m => do
    let (sent, m') ← dumpReg n buf regs i name m
    let rest ← dumpRegs n buf regs (i + 1) names m'
    some (sent ++ rest)

/-- `dump`. What `printf` writes to its array, the next access to `regs` reads. -/
def dump (n : ℕ) (m : Support.Mem) (buf : ℕ) (regs : BitVec 32) : Option (List UInt8) := do
  let (sent, m') ← prints n m buf (ascii "regs @ %#8.8x") [.int regs]
  let lines ← dumpRegs n buf regs 0 names m'
  some (sent ++ lines ++ ascii "\n")

section

variable (n : ℕ) (m : Support.Mem) (buf : ℕ) (regs : BitVec 32)

/-- A handler that dumps the registers. -/
def dumps (name : String) : Option (List UInt8) := (dump n m buf regs).map (Printf.trace name ++ ·)

def exceptionResetHandler : Option (List UInt8) := dumps n m buf regs "exception_reset_handler"

def exceptionUndefinedHandler : Option (List UInt8) := dumps n m buf regs "exception_undefined_handler"

def exceptionSyscallHandler : Option (List UInt8) := dumps n m buf regs "exception_syscall_handler"

def exceptionPrefetchAbortHandler : Option (List UInt8) := dumps n m buf regs "exception_prefetch_abort_handler"

def exceptionDataAbortHandler : Option (List UInt8) := dumps n m buf regs "exception_data_abort_handler"

def exceptionFiqHandler : Option (List UInt8) := dumps n m buf regs "exception_fiq_handler"

/-- What the handler of an exception sends. -/
def handled : Exception → Option (List UInt8)
  | .undefined => exceptionUndefinedHandler n m buf regs
  | .syscall => exceptionSyscallHandler n m buf regs
  | .prefetchAbort => exceptionPrefetchAbortHandler n m buf regs
  | .dataAbort => exceptionDataAbortHandler n m buf regs
  | .irq => some (Printf.trace "exception_irq_handler")
  | .fiq => exceptionFiqHandler n m buf regs

end

/-- The name of the handler of an exception. -/
def handlerName : Exception → String
  | .undefined => "exception_undefined_handler"
  | .syscall => "exception_syscall_handler"
  | .prefetchAbort => "exception_prefetch_abort_handler"
  | .dataAbort => "exception_data_abort_handler"
  | .irq => "exception_irq_handler"
  | .fiq => "exception_fiq_handler"

/-- A register in the report. -/
def reportReg (i : ℕ) (name : List UInt8) (v : BitVec 32) : List UInt8 :=
  (if i % 4 = 0 then ascii "\n" else []) ++ (name ++ ascii " = " ++ hexWord v ++ ascii "    ")

def reportRegs (i : ℕ) (ns : List (List UInt8)) (ws : List (BitVec 32)) : List UInt8 :=
  (((ns.zip ws).zipIdx i).map fun r ↦ reportReg r.2 r.1.1 r.1.2).flatten

/-- The report about the words `ws` at the address `regs`. -/
def report (regs : BitVec 32) (ws : List (BitVec 32)) : List UInt8 :=
  ascii "regs @ " ++ hexWord regs ++ reportRegs 0 names ws ++ ascii "\n"

variable {c : Cpu} {code : BitVec 32 → Option Instr} {t regs v : BitVec 32} {h : Handlers} {e : Exception}
  {m : Support.Mem} {buf i : ℕ} {name fmt : List UInt8} {ns : List (List UInt8)} {args rest : List Arg}
  {es : List Emission}

theorem names_length (hn : name ∈ names) : name.length = 3 ∧ ∀ c ∈ name, c ≠ 0 := by
  have hall : ∀ name ∈ names, name.length = 3 ∧ ∀ c ∈ name, c ≠ 0 := by decide
  exact hall name hn

theorem regs_text (v : BitVec 32) :
    ∃ es, Printf.Text (ascii "regs @ %#8.8x") 0 [.int v] es [] ∧ chars es = ascii "regs @ " ++ hexWord v := by
  have hd : (ascii "regs @ %#8.8x").drop 7 = ascii "%#8.8x" ++ [] := rfl
  have hd₀ : (ascii "regs @ %#8.8x").drop 0 = ascii "regs @ " ++ ascii "%#8.8x" := rfl
  obtain ⟨fs, ht, hfs⟩ := Printf.Text.hexWord hd v (.stop rfl)
  refine ⟨_, Printf.Text.literals hd₀ (by decide) ht, ?_⟩
  rw [chars_append, chars_map_plain, append_nil, hfs]

theorem reg_text (hn : ∀ c ∈ name, c ≠ 0) (v : BitVec 32) :
    ∃ es, Printf.Text (ascii "%s = %#8.8x    ") 0 [.str name, .int v] es [] ∧
      chars es = name ++ ascii " = " ++ hexWord v ++ ascii "    " := by
  have hd₀ : (ascii "%s = %#8.8x    ").drop 0 = ascii "%s" ++ ascii " = %#8.8x    " := rfl
  have hd₂ : (ascii "%s = %#8.8x    ").drop 2 = ascii " = " ++ ascii "%#8.8x    " := rfl
  have hd₅ : (ascii "%s = %#8.8x    ").drop 5 = ascii "%#8.8x" ++ ascii "    " := rfl
  have hd₁₁ : (ascii "%s = %#8.8x    ").drop 11 = ascii "    " ++ [] := rfl
  obtain ⟨fs, ht, hfs⟩ := Printf.Text.hexWord hd₅ v (Printf.Text.literals hd₁₁ (by decide) (.stop rfl))
  refine ⟨_, Printf.Text.string hd₀ hn (Printf.Text.literals hd₂ (by decide) ht), ?_⟩
  simp only [chars_append, chars_map_plain, chars_map_moves, hfs, append_nil, append_assoc]

/-- A text that fits is sent, and only the array of `printf` changes. -/
theorem prints_result (ht : Printf.Text fmt 0 args es rest) (hne : ∀ c ∈ chars es, c ≠ 0)
    (hhi : buf + BUF_SIZE ≤ RAM_END) (hl : (chars es).length < BUF_SIZE) (m : Support.Mem) :
    ∃ m', (∀ x, x < buf ∨ buf + BUF_SIZE ≤ x → m' x = m x) ∧
      ∃ N, ∀ n, N ≤ n → prints n m buf fmt args = some (chars es, m') := by
  have hE : RAM_END = 0xE0000000 := rfl
  have hB : BUF_SIZE = 4096 := rfl
  obtain ⟨N, hN⟩ := printf_sends ht hne hhi hl m
  rw [length_chars] at hl
  obtain ⟨r, ⟨M, hM⟩, -, -, hin, -⟩ := ht.truncates (by omega : buf + BUF_SIZE < 2 ^ 32) (fits_of_length_le hl.le) (by omega)
  refine ⟨patch m r.written, fun x hx ↦ ?_, max N M, fun n hn ↦ ?_⟩
  · have hnone : r.written x = none := by
      by_contra hw
      have := hin x hw
      omega
    rw [patch, hnone, Option.getD_none]
  · rw [prints, hN n ((Nat.le_max_left N M).trans hn), hM n ((Nat.le_max_right N M).trans hn)]
    rfl

/-- A line has no zeros and is short. -/
theorem dumpReg_result (hn : name ∈ names) (hhi : buf + BUF_SIZE ≤ RAM_END) (regs : BitVec 32) (i : ℕ) (m : Support.Mem) :
    ∃ m', (∀ x, x < buf ∨ buf + BUF_SIZE ≤ x → m' x = m x) ∧ ∃ N, ∀ n, N ≤ n →
      dumpReg n buf regs i name m = some (reportReg i name (m.word (regs + .ofNat 32 (4 * i))), m') := by
  obtain ⟨hlen, hne⟩ := names_length hn
  obtain ⟨es, ht, hes⟩ := reg_text hne (m.word (regs + .ofNat 32 (4 * i)))
  have hend : ∀ c ∈ ascii " = " ++ ascii "    ", c ≠ 0 := by decide
  have hl : (ascii " = ").length + (ascii "    ").length = 7 := rfl
  obtain ⟨m', hm, N, hN⟩ := prints_result ht (by
    intro c hc
    have hv := hexWord_ne_zero (m.word (regs + .ofNat 32 (4 * i))) c
    have hs := hend c
    simp only [hes, mem_append] at hc hs
    tauto) hhi (by
    simp only [hes, length_append, hexWord_length, hlen, BUF_SIZE]
    omega) m
  refine ⟨m', hm, N, fun n hn ↦ ?_⟩
  rw [dumpReg, hN n hn, hes]
  rfl

/-- The lines show the words as they were, as the array of `printf` is elsewhere. -/
theorem dumpRegs_result (hns : ∀ name ∈ ns, name ∈ names) (hhi : buf + BUF_SIZE ≤ RAM_END)
    (hr : regs.toNat + 4 * (i + ns.length) ≤ 2 ^ 32)
    (ha : ∀ x, regs.toNat ≤ x → x < regs.toNat + 4 * (i + ns.length) → x < buf ∨ buf + BUF_SIZE ≤ x) (m : Support.Mem) :
    ∃ N, ∀ n, N ≤ n → dumpRegs n buf regs i ns m =
      some (reportRegs i ns (m.loadWords (regs + .ofNat 32 (4 * i)) ns.length)) := by
  induction ns generalizing i m with
  | nil => exact ⟨0, fun _ _ ↦ rfl⟩
  | cons name ns ih =>
    rw [length_cons] at hr ha
    obtain ⟨m', hm, N, hN⟩ := dumpReg_result (hns name mem_cons_self) hhi regs i m
    obtain ⟨M, hM⟩ := ih (i := i + 1) (fun s hs ↦ hns s (mem_cons_of_mem name hs)) (by omega)
      (fun x hx hx' ↦ ha x hx (by omega)) m'
    have hnext : regs + .ofNat 32 (4 * i) + 4 = regs + .ofNat 32 (4 * (i + 1)) := by bv_omega
    have hsame : m'.loadWords (regs + .ofNat 32 (4 * (i + 1))) ns.length =
        m.loadWords (regs + .ofNat 32 (4 * (i + 1))) ns.length := by
      cases hl : ns.length with
      | zero => rfl
      | succ k =>
        have hat : (regs + .ofNat 32 (4 * (i + 1))).toNat = regs.toNat + 4 * (i + 1) := by bv_omega
        exact Mem.loadWords_congr (by omega) fun x hx hx' ↦ hm x (ha x (by omega) (by omega))
    refine ⟨max N M, fun n hn ↦ ?_⟩
    rw [dumpRegs, hN n ((Nat.le_max_left N M).trans hn)]
    simp only [Option.bind_eq_bind, Option.bind_some, hM n ((Nat.le_max_right N M).trans hn)]
    rw [hsame, length_cons, Mem.loadWords, hnext]
    rfl

theorem dump_result (hhi : buf + BUF_SIZE ≤ RAM_END) (hr : regs.toNat + 64 ≤ 2 ^ 32)
    (ha : buf + BUF_SIZE ≤ regs.toNat ∨ regs.toNat + 64 ≤ buf) (m : Support.Mem) :
    ∃ N, ∀ n, N ≤ n → dump n m buf regs = some (report regs (m.loadWords regs 16)) := by
  have hfront : ∀ c ∈ ascii "regs @ ", c ≠ 0 := by decide
  have hl : (ascii "regs @ ").length = 7 := rfl
  have hlen : names.length = 16 := rfl
  obtain ⟨es, ht, hes⟩ := regs_text regs
  obtain ⟨m', hm, N, hN⟩ := prints_result ht (by
    intro c hc
    rcases mem_append.mp (hes ▸ hc) with hc | hc
    · exact hfront c hc
    · exact hexWord_ne_zero regs c hc) hhi (by
    rw [hes, length_append, hexWord_length, hl, BUF_SIZE]
    decide) m
  obtain ⟨M, hM⟩ : ∃ M, ∀ n, M ≤ n → dumpRegs n buf regs 0 names m' = _ :=
    dumpRegs_result (fun _ ↦ id) hhi (by omega) (fun x hx hx' ↦ by omega) m'
  have hwords : m'.loadWords (regs + .ofNat 32 (4 * 0)) names.length = m.loadWords regs 16 := by
    rw [hlen, Nat.mul_zero, BitVec.add_zero]
    exact Mem.loadWords_congr hr fun x hx hx' ↦ hm x (by omega)
  refine ⟨max N M, fun n hn ↦ ?_⟩
  rw [dump, hN n ((Nat.le_max_left N M).trans hn)]
  simp only [Option.bind_eq_bind, Option.bind_some, hM n ((Nat.le_max_right N M).trans hn)]
  rw [hwords, hes]
  rfl

theorem handled_eq (he : e ≠ .irq) (n : ℕ) (m : Support.Mem) (buf : ℕ) (regs : BitVec 32) :
    handled n m buf regs e = (dump n m buf regs).map (Printf.trace (handlerName e) ++ ·) := by
  cases e with
  | irq => exact absurd rfl he
  | _ => rfl

/-- The report shows the registers of the program that was interrupted, whatever
the mode its handler runs in. -/
theorem crash_report (hx : Text code t h) (he : e ≠ .irq) (hs : HasStack e c) (hhi : buf + BUF_SIZE ≤ RAM_END)
    (ha : buf + BUF_SIZE + 64 ≤ (c.r (e.mode, .sp)).toNat ∨ (c.r (e.mode, .sp)).toNat ≤ buf) :
    Leads (step code) (fun c' ↦ c'.pc = handler h e ∧ ∃ N, ∀ n, N ≤ n → handled n c'.mem buf (c'.get .r0) e =
      some (Printf.trace (handlerName e) ++ report (c.r (e.mode, .sp) - 64) (frameWords e c))) (c.raise t e) ∧
      (c.cpsr.mode ≠ .fiq →
        frameWords e c = (userRegs.take 13).map c.get ++ [c.r (.usr, .sp), c.r (.usr, .lr), returns e c]) := by
  refine ⟨(entered hx e hs.room).leads.mono fun c' hc ↦ ⟨hc.pc, ?_⟩, frameWords_eq e⟩
  have hroom := hs.room
  have hlt := (c.r (e.mode, .sp)).isLt
  have hregs : (c'.get .r0).toNat = (c.r (e.mode, .sp)).toNat - 64 := by
    rw [hc.r0, hc.sp]
    bv_omega
  obtain ⟨N, hN⟩ : ∃ N, ∀ n, N ≤ n → dump n c'.mem buf (c'.get .r0) = _ :=
    dump_result hhi (by omega) (by omega) c'.mem
  refine ⟨N, fun n hn ↦ ?_⟩
  rw [handled_eq he, hN n hn, hc.r0, hc.frame, hc.sp]
  rfl

theorem crash_report_small :
    Leads (step idleCode) (fun c' ↦ c'.pc = 4 ∧ ∃ N, ∀ n, N ≤ n →
      handled n c'.mem 0xC0001000 (c'.get .r0) .dataAbort = some (Printf.trace "exception_data_abort_handler" ++
        report 0xFC0 (replicate 15 0x1000 ++ [0]))) (idle.raise 32 .dataAbort) ∧
      (Mode.sys ≠ .fiq → frameWords .dataAbort idle = replicate 13 0x1000 ++ [0x1000, 0x1000, 0]) :=
  @crash_report idle idleCode 32 _ .dataAbort 0xC0001000 idle_text (by decide) ⟨by decide, by decide⟩ (by decide)
    (.inr (by decide))

end OcamlRpi.Entry
